import Mathlib.Algebra.Order.Ring.Int
import Mathlib.Tactic.Ring

/-!
# Files of bytes

The content of a regular file is the list of its bytes. `pread` reads at a position,
short at the end of the file; `pwrite` overwrites at a position and fills a gap beyond
the end with zeros. `getElem?_pwrite` says what every byte is after a write, and the
rules for reads after writes (`pread_pwrite_self`, `pread_pwrite_of_le`,
`pread_pwrite_of_ge`) follow from it.

`overlay` is a transfer into a buffer that may be short : the bytes read replace the
front of the buffer and the rest keeps its old content.

`leBytes` and `ofLe` are the little-endian bytes of a word and the word of given bytes,
and `int32`, `uint32` and `int64` the conversions to the C types of these widths.
-/

abbrev ByteFile := List UInt8

namespace ByteFile

/-- Up to `n` bytes at `off`; fewer at the end of the file. -/
def pread (f : ByteFile) (n off : ℕ) : List UInt8 :=
  (f.drop off).take n

/-- Overwrite the bytes at `off` with `d`. A gap after the end reads as zeros. -/
def pwrite (f : ByteFile) (d : List UInt8) (off : ℕ) : ByteFile :=
  if d = [] then f
  else (f ++ List.replicate (off - f.length) 0).take off ++ d ++ f.drop (off + d.length)

/-- `d` read into the buffer `buf`. -/
def overlay (buf d : List UInt8) : List UInt8 :=
  d ++ buf.drop d.length

theorem length_pread (f : ByteFile) (n off : ℕ) :
    (f.pread n off).length = min n (f.length - off) := by
  simp [pread]

theorem getElem?_pread (f : ByteFile) (n off i : ℕ) :
    (f.pread n off)[i]? = if i < n then f[off + i]? else none := by
  rw [pread, List.getElem?_take]
  split_ifs <;> simp

@[simp] theorem pwrite_nil (f : ByteFile) (off : ℕ) : f.pwrite [] off = f := by
  simp [pwrite]

/-- Every byte after a write of at least one byte. -/
theorem getElem?_pwrite (f : ByteFile) {d : List UInt8} (hd : d ≠ []) (off i : ℕ) :
    (f.pwrite d off)[i]? =
      if i < off then some ((f[i]?).getD 0)
      else if i < off + d.length then d[i - off]? else f[i]? := by
  have hlen : ((f ++ List.replicate (off - f.length) 0).take off).length = off := by
    simp; omega
  rw [pwrite, if_neg hd, List.append_assoc, List.getElem?_append, hlen]
  split_ifs with h1 h2
  · rw [List.getElem?_take_of_lt h1, List.getElem?_append]
    split_ifs with h3
    · simp [h3]
    · rw [List.getElem?_replicate, if_pos (by omega), List.getElem?_eq_none (by omega)]
      rfl
  · rw [List.getElem?_append_left (by omega)]
  · rw [List.getElem?_append_right (by omega), List.getElem?_drop]
    congr 1
    omega

theorem length_pwrite (f : ByteFile) {d : List UInt8} (hd : d ≠ []) (off : ℕ) :
    (f.pwrite d off).length = max f.length (off + d.length) := by
  simp only [pwrite, if_neg hd, List.length_append, List.length_take, List.length_replicate,
    List.length_drop]
  omega

/-- A write inside the file. -/
theorem length_pwrite_of_le {f : ByteFile} {d : List UInt8} {off : ℕ}
    (h : off + d.length ≤ f.length) : (f.pwrite d off).length = f.length := by
  by_cases hd : d = []
  · rw [hd, pwrite_nil]
  · rw [length_pwrite f hd, max_eq_left h]

/-- A write is read back. -/
theorem pread_pwrite_self (f : ByteFile) (d : List UInt8) (off : ℕ) :
    (f.pwrite d off).pread d.length off = d := by
  by_cases hd : d = []
  · simp [hd, pread]
  · refine List.ext_getElem? fun i => ?_
    rw [getElem?_pread, getElem?_pwrite f hd]
    split_ifs with h1
    · omega
    · congr 1
      omega
    · omega
    · exact (List.getElem?_eq_none (by omega)).symm

/-- A read that ends before the written range, inside the old file, is unchanged. -/
theorem pread_pwrite_of_le (f : ByteFile) (d : List UInt8) {n off off' : ℕ}
    (h : off' + n ≤ off) (hf : off' + n ≤ f.length) :
    (f.pwrite d off).pread n off' = f.pread n off' := by
  by_cases hd : d = []
  · simp [hd]
  · refine List.ext_getElem? fun i => ?_
    rw [getElem?_pread, getElem?_pread, getElem?_pwrite f hd]
    split_ifs with h1 h2
    · rw [List.getElem?_eq_getElem (by omega : off' + i < f.length)]
      rfl
    · omega
    · omega
    · rfl

/-- A read that starts after the written range is unchanged. -/
theorem pread_pwrite_of_ge (f : ByteFile) (d : List UInt8) {n off off' : ℕ}
    (h : off + d.length ≤ off') : (f.pwrite d off).pread n off' = f.pread n off' := by
  by_cases hd : d = []
  · simp [hd]
  · refine List.ext_getElem? fun i => ?_
    rw [getElem?_pread, getElem?_pread, getElem?_pwrite f hd]
    split_ifs with h1 h2 h3
    · omega
    · omega
    · rfl
    · rfl

/-- A write at the end appends. -/
theorem pwrite_length (f : ByteFile) (d : List UInt8) : f.pwrite d f.length = f ++ d := by
  by_cases hd : d = []
  · simp [hd]
  · simp [pwrite, hd]

/-- A read in the middle of a file in three parts. -/
theorem pread_append (a d b : List UInt8) : pread (a ++ d ++ b) d.length a.length = d := by
  simp [pread]

/-- One of a row of records of `w` bytes. -/
theorem pread_flatMap {α : Type*} {g : α → List UInt8} {w : ℕ} (hg : ∀ x, (g x).length = w) :
    ∀ {l : List α} {j : ℕ} {x : α}, l[j]? = some x → pread (l.flatMap g) w (w * j) = g x
  | [], j, x, h => by simp at h
  | y :: l, 0, x, h => by
    obtain rfl : y = x := by simpa using h
    simp [pread, ← hg y]
  | y :: l, j + 1, x, h => by
    have hj : w * (j + 1) = (g y).length + w * j := by rw [hg y]; ring
    rw [List.flatMap_cons, pread, hj, List.drop_length_add_append]
    exact pread_flatMap hg (by simpa using h)

/-- A full transfer replaces the whole buffer. -/
theorem overlay_of_length_le {buf d : List UInt8} (h : buf.length ≤ d.length) :
    overlay buf d = d := by
  simp [overlay, List.drop_eq_nil_of_le h]

@[simp] theorem overlay_nil (buf : List UInt8) : overlay buf [] = buf := by
  simp [overlay]

theorem length_overlay {buf d : List UInt8} (h : d.length ≤ buf.length) :
    (overlay buf d).length = buf.length := by
  simp [overlay]
  omega

/-! ## Words -/

/-- The `n` little-endian bytes of `x`. -/
def leBytes : ℕ → ℕ → List UInt8
  | 0, _ => []
  | n + 1, x => UInt8.ofNat x :: leBytes n (x / 256)

/-- The number with the little-endian bytes `l`. -/
def ofLe : List UInt8 → ℕ
  | [] => 0
  | b :: l => b.toNat + 256 * ofLe l

@[simp] theorem length_leBytes : ∀ n x, (leBytes n x).length = n
  | 0, _ => rfl
  | n + 1, x => by simp [leBytes, length_leBytes n]

theorem ofLe_leBytes : ∀ n x, ofLe (leBytes n x) = x % 256 ^ n
  | 0, x => by simp [leBytes, ofLe, Nat.mod_one]
  | n + 1, x => by
    have hpow : 256 ^ (n + 1) = 256 * 256 ^ n := by ring
    rw [leBytes, ofLe, ofLe_leBytes n, UInt8.toNat_ofNat', hpow, Nat.mod_mul]

/-- The bytes of a word in two parts. -/
theorem leBytes_add : ∀ m n x, leBytes (m + n) x = leBytes m x ++ leBytes n (x / 256 ^ m)
  | 0, n, x => by simp [leBytes]
  | m + 1, n, x => by
    have hpow : 256 ^ (m + 1) = 256 * 256 ^ m := by ring
    rw [Nat.succ_add, leBytes, leBytes, leBytes_add m, List.cons_append, Nat.div_div_eq_div_mul,
      hpow]

/-- The bytes of a word depend on its low digits only. -/
theorem leBytes_mod : ∀ n x, leBytes n (x % 256 ^ n) = leBytes n x
  | 0, x => rfl
  | n + 1, x => by
    have hpow : 256 ^ (n + 1) = 256 * 256 ^ n := by ring
    have hbyte : UInt8.ofNat (x % (256 * 256 ^ n)) = UInt8.ofNat x := by
      rw [← UInt8.toNat_inj, UInt8.toNat_ofNat', UInt8.toNat_ofNat',
        Nat.mod_mod_of_dvd x (Dvd.intro _ rfl)]
    rw [leBytes, leBytes, hpow, hbyte, Nat.mod_mul_right_div_self, leBytes_mod n]

/-- The first digit of a word of bytes that may end early. -/
theorem ofLe_take_succ (l : List UInt8) (n : ℕ) :
    ofLe (l.take (n + 1)) = (l.getD 0 0).toNat + 256 * ofLe ((l.drop 1).take n) := by
  cases l with
  | nil => simp [ofLe]
  | cons b l => simp [ofLe]

theorem ofLe_lt : ∀ l, ofLe l < 256 ^ l.length
  | [] => by simp [ofLe]
  | b :: l => by
    have hpow : 256 ^ (l.length + 1) = 256 * 256 ^ l.length := by ring
    have hb := b.toNat_lt
    have hl := ofLe_lt l
    rw [ofLe, List.length_cons, hpow]
    omega

/-- Words of the same bytes. -/
theorem ofLe_injective : ∀ {l l' : List UInt8}, l.length = l'.length → ofLe l = ofLe l' → l = l'
  | [], [], _, _ => rfl
  | b :: l, c :: l', hlen, h => by
    have hb := b.toNat_lt
    have hc := c.toNat_lt
    rw [ofLe, ofLe] at h
    have hbyte : b = c := UInt8.toNat_inj.1 (by omega)
    rw [hbyte, ofLe_injective (Nat.succ.inj hlen) (by omega)]

theorem ofLe_eq_zero_iff : ∀ {l}, ofLe l = 0 ↔ ∀ b ∈ l, b = 0
  | [] => by simp [ofLe]
  | b :: l => by
    have hb : b.toNat = 0 ↔ b = 0 := by
      rw [← UInt8.toNat_inj]
      rfl
    rw [ofLe, List.forall_mem_cons, ← ofLe_eq_zero_iff (l := l), Nat.add_eq_zero_iff, hb,
      Nat.mul_eq_zero]
    simp

end ByteFile

/-! ## C integers -/

namespace CInt

/-- The value of an `int` with the bits of `x`. -/
def int32 (x : ℤ) : ℤ := x.bmod (2 ^ 32)

/-- The value of an `unsigned` with the bits of `x`. -/
def uint32 (x : ℤ) : ℤ := x % 2 ^ 32

/-- The value of a 64-bit `long` with the bits of `x`. -/
def int64 (x : ℤ) : ℤ := x.bmod (2 ^ 64)

/-- The value of a 64-bit `unsigned long` with the bits of `x`. -/
def uint64 (x : ℤ) : ℤ := x % 2 ^ 64

theorem int32_of_range {x : ℤ} (h₁ : -2 ^ 31 ≤ x) (h₂ : x < 2 ^ 31) : int32 x = x := by
  simp only [int32, Int.bmod]
  omega

theorem int64_of_range {x : ℤ} (h₁ : -2 ^ 63 ≤ x) (h₂ : x < 2 ^ 63) : int64 x = x := by
  simp only [int64, Int.bmod]
  omega

/-- A `long` has the bits of one word. -/
theorem int64_inj {x y : ℤ} (hx : 0 ≤ x ∧ x < 2 ^ 64) (hy : 0 ≤ y ∧ y < 2 ^ 64) :
    int64 x = int64 y ↔ x = y := by
  simp only [int64, Int.bmod]
  omega

theorem uint64_of_range {x : ℤ} (h₁ : 0 ≤ x) (h₂ : x < 2 ^ 64) : uint64 x = x := by
  simp only [uint64]
  omega

end CInt
