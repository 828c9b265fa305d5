import Agilefs.BlockHash

/-!
# MD5

The hash function MD5 on words of 32 bits : four rounds of sixteen operations change four words for
each block of 64 bytes.
-/

namespace Md5

open ByteFile

/-- Four words of `w` bits. -/
structure Vars (w : ℕ) where
  a : BitVec w
  b : BitVec w
  c : BitVec w
  d : BitVec w
  deriving DecidableEq

/-- One operation : the word of the block, the rotation, and the constant. -/
structure Op where
  k : ℕ
  s : ℕ
  t : ℕ
  deriving DecidableEq

/-- The four rounds, with the function each of them applies to three of the words. -/
abbrev Rounds (w : ℕ) := List ((BitVec w → BitVec w → BitVec w → BitVec w) × List Op)

/-- The words at the start. -/
def init (w : ℕ) : Vars w :=
  ⟨.ofNat w 0x67452301, .ofNat w 0xEFCDAB89, .ofNat w 0x98BADCFE, .ofNat w 0x10325476⟩

/-- Word `k` of a block. -/
def word (block : List UInt8) (k : ℕ) : BitVec 32 := .ofNat 32 (ofLe (pread block 4 (4 * k)))

/-- One operation. The words trade places, so that each is the first in turn. -/
def operate (f : BitVec 32 → BitVec 32 → BitVec 32 → BitVec 32) (block : List UInt8)
    (v : Vars 32) (op : Op) : Vars 32 :=
  ⟨v.d, v.b + (v.a + f v.b v.c v.d + word block op.k + .ofNat 32 op.t).rotateLeft op.s, v.b, v.c⟩

/-- The integer parts of `2 ^ 32 * |sin i|`, for `i` from 1 on. -/
def sines : List ℕ :=
  [0xD76AA478, 0xE8C7B756, 0x242070DB, 0xC1BDCEEE, 0xF57C0FAF, 0x4787C62A, 0xA8304613, 0xFD469501,
   0x698098D8, 0x8B44F7AF, 0xFFFF5BB1, 0x895CD7BE, 0x6B901122, 0xFD987193, 0xA679438E, 0x49B40821,
   0xF61E2562, 0xC040B340, 0x265E5A51, 0xE9B6C7AA, 0xD62F105D, 0x02441453, 0xD8A1E681, 0xE7D3FBC8,
   0x21E1CDE6, 0xC33707D6, 0xF4D50D87, 0x455A14ED, 0xA9E3E905, 0xFCEFA3F8, 0x676F02D9, 0x8D2A4C8A,
   0xFFFA3942, 0x8771F681, 0x6D9D6122, 0xFDE5380C, 0xA4BEEA44, 0x4BDECFA9, 0xF6BB4B60, 0xBEBFBC70,
   0x289B7EC6, 0xEAA127FA, 0xD4EF3085, 0x04881D05, 0xD9D4D039, 0xE6DB99E5, 0x1FA27CF8, 0xC4AC5665,
   0xF4292244, 0x432AFF97, 0xAB9423A7, 0xFC93A039, 0x655B59C3, 0x8F0CCC92, 0xFFEFF47D, 0x85845DD1,
   0x6FA87E4F, 0xFE2CE6E0, 0xA3014314, 0x4E0811A1, 0xF7537E82, 0xBD3AF235, 0x2AD7D2BB, 0xEB86D391]

/-- The operations of round `r`, which go through the words in steps of `step` from `first` on. -/
def ops (r step first : ℕ) (shifts : List ℕ) : List Op :=
  (List.range 16).map fun i =>
    ⟨(step * i + first) % 16, shifts.getD (i % 4) 0, sines.getD (16 * r + i) 0⟩

/-- The four rounds. -/
def rounds : Rounds 32 :=
  [(fun x y z => (x &&& y) ||| (~~~x &&& z), ops 0 1 0 [7, 12, 17, 22]),
   (fun x y z => (x &&& z) ||| (y &&& ~~~z), ops 1 5 1 [5, 9, 14, 20]),
   (fun x y z => x ^^^ y ^^^ z, ops 2 3 5 [4, 11, 16, 23]),
   (fun x y z => y ^^^ (x ||| ~~~z), ops 3 7 0 [6, 10, 15, 21])]

/-- The sums of the words. -/
def Vars.add {w : ℕ} (v u : Vars w) : Vars w := ⟨v.a + u.a, v.b + u.b, v.c + u.c, v.d + u.d⟩

/-- The words once a block is compressed. -/
def compress (v : Vars 32) (block : List UInt8) : Vars 32 :=
  v.add (rounds.foldl (fun u r => r.2.foldl (operate r.1 block) u) v)

/-- MD5. -/
def scheme : BlockHash.Scheme (Vars 32) where
  width := 64
  init := init 32
  compress := compress
  lengthBytes n := leBytes 8 (8 * n)
  output v := leBytes 4 v.a.toNat ++ leBytes 4 v.b.toNat ++ leBytes 4 v.c.toNat ++
    leBytes 4 v.d.toNat

/-- The hash of three bytes. -/
example : scheme.hash [0x61, 0x62, 0x63] =
    [0x90, 0x01, 0x50, 0x98, 0x3C, 0xD2, 0x4F, 0xB0, 0xD6, 0x96, 0x3F, 0x7D, 0x28, 0xE1, 0x7F,
     0x72] := by
  decide +kernel

end Md5
