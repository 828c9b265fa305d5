import Agilefs.Md5Scheme
import Agilefs.Loop

/-!
# The digests of `md5.c`

`md5_update` takes a message in pieces and `md5_finish` returns the digest. The words are of type
`unsigned long`, which has 64 bits, and what the shifts and sums leave in their upper halves is
never cleared : `low_process` says that the lower halves are the words of MD5 all the same.

`finish_stream` : the digest of a message is its MD5 hash, however the message is cut in pieces.
`md5File_eq` : `md5_file` returns the hash of a file.
-/

namespace Agilefs

open ByteFile BlockHash

/-- `md5_context`, without the pads of a HMAC. -/
structure Md5Context where
  total0 : BitVec 64
  total1 : BitVec 64
  state : Md5.Vars 64
  buffer : BlockHash.Block 64

namespace Md5Context

/-- The context with other words. -/
def setState (ctx : Md5Context) (state : Md5.Vars 64) : Md5Context := { ctx with state }

section SetState

variable (ctx : Md5Context) (state : Md5.Vars 64)

@[simp] theorem setState_total0 : (ctx.setState state).total0 = ctx.total0 := rfl

@[simp] theorem setState_total1 : (ctx.setState state).total1 = ctx.total1 := rfl

@[simp] theorem setState_buffer : (ctx.setState state).buffer = ctx.buffer := rfl

@[simp] theorem setState_state : (ctx.setState state).state = state := rfl

end SetState

/-! ## `md5_process` -/

/-- `(unsigned long) (b)[(i)]`. -/
def ulong (b : List UInt8) (i : ℕ) : BitVec 64 := (b.getD i 0).toBitVec.setWidth 64

/-- `GET_ULONG_LE`. -/
def getUlongLe (b : List UInt8) (i : ℕ) : BitVec 64 :=
  ulong b i ||| ulong b (i + 1) <<< 8 ||| ulong b (i + 2) <<< 16 ||| ulong b (i + 3) <<< 24

/-- `PUT_ULONG_LE`. -/
def putUlongLe (n : BitVec 64) : List UInt8 :=
  [UInt8.ofNat n.toNat, UInt8.ofNat (n >>> 8).toNat, UInt8.ofNat (n >>> 16).toNat,
    UInt8.ofNat (n >>> 24).toNat]

/-- `S`. -/
def rotate (x : BitVec 64) (n : ℕ) : BitVec 64 := x <<< n ||| (x &&& 0xFFFFFFFF) >>> (32 - n)

/-- `P(a,b,c,d,k,s,t)`. The source writes it with `A, B, C, D`, then with `D, A, B, C`, and so on :
here the words trade places. -/
def p (f : BitVec 64 → BitVec 64 → BitVec 64 → BitVec 64) (data : List UInt8) (v : Md5.Vars 64)
    (op : Md5.Op) : Md5.Vars 64 :=
  let a := v.a + (f v.b v.c v.d + getUlongLe data (4 * op.k) + .ofNat 64 op.t)
  ⟨v.d, rotate a op.s + v.b, v.b, v.c⟩

/-- The four definitions of `F`, each with the lines that use it. -/
def rounds : Md5.Rounds 64 :=
  [(fun x y z => z ^^^ (x &&& (y ^^^ z)),
    [⟨0, 7, 0xD76AA478⟩, ⟨1, 12, 0xE8C7B756⟩, ⟨2, 17, 0x242070DB⟩, ⟨3, 22, 0xC1BDCEEE⟩,
     ⟨4, 7, 0xF57C0FAF⟩, ⟨5, 12, 0x4787C62A⟩, ⟨6, 17, 0xA8304613⟩, ⟨7, 22, 0xFD469501⟩,
     ⟨8, 7, 0x698098D8⟩, ⟨9, 12, 0x8B44F7AF⟩, ⟨10, 17, 0xFFFF5BB1⟩, ⟨11, 22, 0x895CD7BE⟩,
     ⟨12, 7, 0x6B901122⟩, ⟨13, 12, 0xFD987193⟩, ⟨14, 17, 0xA679438E⟩, ⟨15, 22, 0x49B40821⟩]),
   (fun x y z => y ^^^ (z &&& (x ^^^ y)),
    [⟨1, 5, 0xF61E2562⟩, ⟨6, 9, 0xC040B340⟩, ⟨11, 14, 0x265E5A51⟩, ⟨0, 20, 0xE9B6C7AA⟩,
     ⟨5, 5, 0xD62F105D⟩, ⟨10, 9, 0x02441453⟩, ⟨15, 14, 0xD8A1E681⟩, ⟨4, 20, 0xE7D3FBC8⟩,
     ⟨9, 5, 0x21E1CDE6⟩, ⟨14, 9, 0xC33707D6⟩, ⟨3, 14, 0xF4D50D87⟩, ⟨8, 20, 0x455A14ED⟩,
     ⟨13, 5, 0xA9E3E905⟩, ⟨2, 9, 0xFCEFA3F8⟩, ⟨7, 14, 0x676F02D9⟩, ⟨12, 20, 0x8D2A4C8A⟩]),
   (fun x y z => x ^^^ y ^^^ z,
    [⟨5, 4, 0xFFFA3942⟩, ⟨8, 11, 0x8771F681⟩, ⟨11, 16, 0x6D9D6122⟩, ⟨14, 23, 0xFDE5380C⟩,
     ⟨1, 4, 0xA4BEEA44⟩, ⟨4, 11, 0x4BDECFA9⟩, ⟨7, 16, 0xF6BB4B60⟩, ⟨10, 23, 0xBEBFBC70⟩,
     ⟨13, 4, 0x289B7EC6⟩, ⟨0, 11, 0xEAA127FA⟩, ⟨3, 16, 0xD4EF3085⟩, ⟨6, 23, 0x04881D05⟩,
     ⟨9, 4, 0xD9D4D039⟩, ⟨12, 11, 0xE6DB99E5⟩, ⟨15, 16, 0x1FA27CF8⟩, ⟨2, 23, 0xC4AC5665⟩]),
   (fun x y z => y ^^^ (x ||| ~~~z),
    [⟨0, 6, 0xF4292244⟩, ⟨7, 10, 0x432AFF97⟩, ⟨14, 15, 0xAB9423A7⟩, ⟨5, 21, 0xFC93A039⟩,
     ⟨12, 6, 0x655B59C3⟩, ⟨3, 10, 0x8F0CCC92⟩, ⟨10, 15, 0xFFEFF47D⟩, ⟨1, 21, 0x85845DD1⟩,
     ⟨8, 6, 0x6FA87E4F⟩, ⟨15, 10, 0xFE2CE6E0⟩, ⟨6, 15, 0xA3014314⟩, ⟨13, 21, 0x4E0811A1⟩,
     ⟨4, 6, 0xF7537E82⟩, ⟨11, 10, 0xBD3AF235⟩, ⟨2, 15, 0x2AD7D2BB⟩, ⟨9, 21, 0xEB86D391⟩])]

/-- The words after a block. -/
def processState (v : Md5.Vars 64) (data : List UInt8) : Md5.Vars 64 :=
  v.add (rounds.foldl (fun v r => r.2.foldl (p r.1 data) v) v)

/-- `md5_process`. -/
def md5Process (ctx : Md5Context) (data : List UInt8) : Md5Context :=
  ctx.setState (processState ctx.state data)

@[simp] theorem md5Process_total0 (ctx : Md5Context) (data : List UInt8) :
    (md5Process ctx data).total0 = ctx.total0 := setState_total0 _ _

@[simp] theorem md5Process_total1 (ctx : Md5Context) (data : List UInt8) :
    (md5Process ctx data).total1 = ctx.total1 := setState_total1 _ _

@[simp] theorem md5Process_buffer (ctx : Md5Context) (data : List UInt8) :
    (md5Process ctx data).buffer = ctx.buffer := setState_buffer _ _

@[simp] theorem md5Process_state (ctx : Md5Context) (data : List UInt8) :
    (md5Process ctx data).state = processState ctx.state data := setState_state _ _

/-! ## The other functions -/

/-- `md5_starts`. The buffer keeps what it holds. -/
def md5Starts (ctx : Md5Context) : Md5Context :=
  { ctx with total0 := 0, total1 := 0, state := Md5.init 64 }

/-- `md5_update` from its loop over the whole blocks of `input` on. -/
def md5UpdateBlocks (ctx : Md5Context) (input : List UInt8) (left : ℕ) : Option Md5Context := do
  let (ctx, input) ← Loop.run (fun v : Md5Context × List UInt8 => v.2.length ≥ 64)
    (fun v => some (md5Process v.1 (v.2.take 64), v.2.drop 64)) (input.length + 1) (ctx, input)
  if input.length > 0 then
    (ctx.buffer.store input left).map fun buffer => { ctx with buffer }
  else some ctx

/-- `ilen` bytes more in `total`. -/
def md5Count (ctx : Md5Context) (ilen : ℕ) : Md5Context :=
  let total0 := (ctx.total0 + .ofNat 64 ilen) &&& 0xFFFFFFFF
  { ctx with total0, total1 := if total0 < .ofNat 64 ilen then ctx.total1 + 1 else ctx.total1 }

/-- `md5_update` of the `ilen` bytes at `input`; `none` if it copies behind the end of its
buffer. -/
def md5Update (ctx : Md5Context) (input : List UInt8) : Option Md5Context :=
  if input.length ≤ 0 then some ctx
  else
    let left := (ctx.total0 &&& 0x3F).toNat
    let fill := 64 - left
    let ctx := md5Count ctx input.length
    if left ≠ 0 ∧ input.length ≥ fill then
      (ctx.buffer.store (input.take fill) left).bind fun buffer =>
        md5UpdateBlocks (md5Process { ctx with buffer } buffer.val) (input.drop fill) 0
    else md5UpdateBlocks ctx input left

/-- `md5_padding`. -/
def md5Padding : List UInt8 := 0x80 :: List.replicate 63 0

/-- `md5_finish`. -/
def md5Finish (ctx : Md5Context) : Option (List UInt8) := do
  let high := ctx.total0 >>> 29 ||| ctx.total1 <<< 3
  let low := ctx.total0 <<< 3
  let msglen := putUlongLe low ++ putUlongLe high
  let last := (ctx.total0 &&& 0x3F).toNat
  let padn := if last < 56 then 56 - last else 120 - last
  let ctx ← md5Update ctx (md5Padding.take padn)
  let ctx ← md5Update ctx msglen
  pure (putUlongLe ctx.state.a ++ putUlongLe ctx.state.b ++ putUlongLe ctx.state.c ++
    putUlongLe ctx.state.d)

/-- `md5`, whose context holds anything at the start. -/
def md5 (stack : Md5Context) (input : List UInt8) : Option (List UInt8) := do
  let ctx ← md5Update (md5Starts stack) input
  md5Finish ctx

/-- `md5_file` into `output`, with the content of the file at `path`, if it can be opened, and
where reading it fails, if it does. `fread` returns fewer bytes than asked for only at the end of
the file and before the failure. -/
def md5File (stack : Md5Context) (output : List UInt8) (file : Option (List UInt8))
    (error : Option ℕ) : Option (ℤ × List UInt8) :=
  match file with
  | none => some (1, output)
  | some content => do
    let readable := match error with
      | none => content
      | some n => content.take n
    let (ctx, _) ← Loop.run (fun v : Md5Context × List UInt8 => v.2 ≠ [])
      (fun v => (md5Update v.1 (v.2.take 1024)).map fun ctx => (ctx, v.2.drop 1024))
      (readable.length + 1) (md5Starts stack, readable)
    let output ← md5Finish ctx
    pure (if error.isSome then 2 else 0, output)

example : md5 ⟨5, 6, Md5.init 64, ⟨List.replicate 64 7, rfl⟩⟩ [0x61, 0x62, 0x63] =
    some [0x90, 0x01, 0x50, 0x98, 0x3C, 0xD2, 0x4F, 0xB0, 0xD6, 0x96, 0x3F, 0x7D, 0x28, 0xE1,
      0x7F, 0x72] := by
  decide +kernel

/-! ## The lower halves -/

/-- The lower halves of the words. -/
def low (v : Md5.Vars 64) : Md5.Vars 32 :=
  ⟨v.a.setWidth 32, v.b.setWidth 32, v.c.setWidth 32, v.d.setWidth 32⟩

theorem setWidth_rotate (x : BitVec 64) {n : ℕ} (hn : n < 32) :
    (rotate x n).setWidth 32 = (x.setWidth 32).rotateLeft n := by
  have hmask : ∀ j : ℕ, (0xFFFFFFFF : BitVec 64).getLsbD j = decide (j < 32) := fun j => by
    have h : (0xFFFFFFFF : BitVec 64).toNat = 2 ^ 32 - 1 := rfl
    rw [BitVec.getLsbD, h, Nat.testBit_two_pow_sub_one]
  refine BitVec.eq_of_getLsbD_eq fun i hi => ?_
  rw [BitVec.getLsbD_rotateLeft, Nat.mod_eq_of_lt hn]
  simp only [rotate, BitVec.getLsbD_setWidth, BitVec.getLsbD_or, BitVec.getLsbD_shiftLeft,
    BitVec.getLsbD_ushiftRight, BitVec.getLsbD_and, hmask]
  by_cases h : i < n
  · have h₁ : 32 - n + i < 32 := by omega
    simp [h, h₁, hi]
  · have h₁ : ¬32 - n + i < 32 := by omega
    have h₂ : i < 64 ∧ i - n < 32 := by omega
    simp [h, h₁, h₂, hi]

theorem toNat_ulong (b : List UInt8) (i : ℕ) : (ulong b i).toNat = (b.getD i 0).toNat := by
  have := (b.getD i 0).toNat_lt
  rw [ulong, BitVec.toNat_setWidth, UInt8.toNat_toBitVec, Nat.mod_eq_of_lt (by omega)]

/-- A byte above the bits of `x`. -/
theorem toNat_or_ulong {x : BitVec 64} {i : ℕ} (hx : x.toNat < 2 ^ i) (hi : i ≤ 24)
    (b : List UInt8) (j : ℕ) :
    (x ||| ulong b j <<< i).toNat = x.toNat + 2 ^ i * (b.getD j 0).toNat := by
  have hb := (b.getD j 0).toNat_lt
  have hle : 2 ^ i * (b.getD j 0).toNat < 2 ^ 24 * 2 ^ 8 :=
    Nat.mul_lt_mul_of_le_of_lt (Nat.pow_le_pow_right (by decide) hi) hb (by decide)
  rw [BitVec.toNat_or, BitVec.toNat_shiftLeft, toNat_ulong, Nat.shiftLeft_eq, mul_comm _ (2 ^ i),
    Nat.mod_eq_of_lt (by omega), Nat.or_comm, ← Nat.two_pow_add_eq_or_of_lt hx, add_comm]

/-- Four bytes of a block make a word of 32 bits. -/
theorem toNat_getUlongLe (b : List UInt8) (i : ℕ) :
    (getUlongLe b i).toNat = ofLe (pread b 4 i) := by
  have hget : ∀ j, (b.drop j).getD 0 0 = b.getD j 0 := fun j => by
    simp [List.getD_eq_getElem?_getD]
  have h₀ := (b.getD i 0).toNat_lt
  have h₁ := (b.getD (i + 1) 0).toNat_lt
  have h₂ := (b.getD (i + 2) 0).toNat_lt
  have hx₁ := toNat_or_ulong (i := 8) ((toNat_ulong b i).trans_lt h₀) (by decide) b (i + 1)
  rw [toNat_ulong] at hx₁
  have hx₂ := toNat_or_ulong (i := 16) (by rw [hx₁]; omega) (by decide) b (i + 2)
  rw [hx₁] at hx₂
  have hx₃ := toNat_or_ulong (i := 24) (by rw [hx₂]; omega) (by decide) b (i + 3)
  rw [hx₂] at hx₃
  rw [getUlongLe, hx₃]
  simp only [pread, ofLe_take_succ, List.drop_drop, hget, List.take_zero, ofLe]
  ring

theorem setWidth_getUlongLe (b : List UInt8) (k : ℕ) :
    (getUlongLe b (4 * k)).setWidth 32 = Md5.word b k := by
  rw [← BitVec.toNat_inj, BitVec.toNat_setWidth, toNat_getUlongLe, Md5.word, BitVec.toNat_ofNat]

/-- One operation on the lower halves. -/
theorem low_p {f : BitVec 64 → BitVec 64 → BitVec 64 → BitVec 64}
    {g : BitVec 32 → BitVec 32 → BitVec 32 → BitVec 32}
    (hf : ∀ x y z, (f x y z).setWidth 32 = g (x.setWidth 32) (y.setWidth 32) (z.setWidth 32))
    (data : List UInt8) (v : Md5.Vars 64) {op : Md5.Op} (hop : op.s < 32) :
    low (p f data v op) = Md5.operate g data (low v) op := by
  have hadd : ∀ x y : BitVec 64, (x + y).setWidth 32 = x.setWidth 32 + y.setWidth 32 :=
    fun x y => BitVec.setWidth_add x y (by decide)
  have hconst : (BitVec.ofNat 64 op.t).setWidth 32 = BitVec.ofNat 32 op.t :=
    BitVec.setWidth_ofNat_of_le (by decide) _
  rw [p, low, Md5.operate, hadd, setWidth_rotate _ hop]
  simp only [hadd, hf, setWidth_getUlongLe, hconst, low]
  rw [BitVec.add_comm, ← BitVec.add_assoc, ← BitVec.add_assoc]

theorem low_foldl_p {f : BitVec 64 → BitVec 64 → BitVec 64 → BitVec 64}
    {g : BitVec 32 → BitVec 32 → BitVec 32 → BitVec 32}
    (hf : ∀ x y z, (f x y z).setWidth 32 = g (x.setWidth 32) (y.setWidth 32) (z.setWidth 32))
    (data : List UInt8) : ∀ {ops : List Md5.Op} {v : Md5.Vars 64}, (∀ op ∈ ops, op.s < 32) →
      low (ops.foldl (p f data) v) = ops.foldl (Md5.operate g data) (low v)
  | [], _, _ => rfl
  | op :: ops, v, h => by
    rw [List.forall_mem_cons] at h
    rw [List.foldl_cons, List.foldl_cons, low_foldl_p hf data h.2, low_p hf data v h.1]

/-- The choice between `y` and `z` with one operation less. -/
theorem choice_eq {w : ℕ} (x y z : BitVec w) :
    z ^^^ (x &&& (y ^^^ z)) = (x &&& y) ||| (~~~x &&& z) := by
  refine BitVec.eq_of_getLsbD_eq fun i hi => ?_
  simp only [BitVec.getLsbD_xor, BitVec.getLsbD_and, BitVec.getLsbD_or, BitVec.getLsbD_not, hi]
  cases x.getLsbD i <;> cases y.getLsbD i <;> cases z.getLsbD i <;> rfl

/-- The rounds of the source and those of MD5 go through the same operations, with functions that
agree on the lower halves. -/
theorem rounds_agree : List.Forall₂ (fun r r' =>
    r.2 = r'.2 ∧ (∀ op ∈ r.2, op.s < 32) ∧ ∀ x y z : BitVec 64, (r.1 x y z).setWidth 32 =
      r'.1 (x.setWidth 32) (y.setWidth 32) (z.setWidth 32)) rounds Md5.rounds := by
  refine .cons ⟨by decide, by decide, fun x y z => ?_⟩
    (.cons ⟨by decide, by decide, fun x y z => ?_⟩
      (.cons ⟨by decide, by decide, fun x y z => ?_⟩
        (.cons ⟨by decide, by decide, fun x y z => ?_⟩ .nil)))
  · simp only [choice_eq, BitVec.setWidth_or, BitVec.setWidth_and,
      BitVec.setWidth_not (by decide : 32 ≤ 64)]
  · -- the choice with the roles of the words exchanged
    simp only [choice_eq, BitVec.setWidth_or, BitVec.setWidth_and,
      BitVec.setWidth_not (by decide : 32 ≤ 64)]
    rw [BitVec.and_comm, BitVec.and_comm (~~~_)]
  · simp only [BitVec.setWidth_xor]
  · simp only [BitVec.setWidth_xor, BitVec.setWidth_or,
      BitVec.setWidth_not (by decide : 32 ≤ 64)]

theorem low_foldl_rounds (data : List UInt8) {rs : Md5.Rounds 64} {rs' : Md5.Rounds 32}
    (h : List.Forall₂ (fun r r' => r.2 = r'.2 ∧ (∀ op ∈ r.2, op.s < 32) ∧
      ∀ x y z : BitVec 64, (r.1 x y z).setWidth 32 =
        r'.1 (x.setWidth 32) (y.setWidth 32) (z.setWidth 32)) rs rs') (v : Md5.Vars 64) :
    low (rs.foldl (fun v r => r.2.foldl (p r.1 data) v) v) =
      rs'.foldl (fun u r => r.2.foldl (Md5.operate r.1 data) u) (low v) := by
  induction h generalizing v with
  | nil => rfl
  | cons hr _ ih =>
    obtain ⟨hops, hlt, hf⟩ := hr
    rw [List.foldl_cons, List.foldl_cons, ih, low_foldl_p hf data hlt, hops]

theorem low_add (v u : Md5.Vars 64) : low (v.add u) = (low v).add (low u) := by
  have hadd : ∀ x y : BitVec 64, (x + y).setWidth 32 = x.setWidth 32 + y.setWidth 32 :=
    fun x y => BitVec.setWidth_add x y (by decide)
  simp only [low, Md5.Vars.add, hadd]

/-- `md5_process` compresses a block. -/
theorem low_process (v : Md5.Vars 64) (data : List UInt8) :
    low (processState v data) = Md5.compress (low v) data := by
  rw [processState, low_add, low_foldl_rounds data rounds_agree, Md5.compress]

/-! ## The message so far -/

/-- The context was given the message `msg`. -/
structure Given (msg : List UInt8) (ctx : Md5Context) : Prop where
  total0 : ctx.total0.toNat = msg.length % 2 ^ 32
  total1 : ctx.total1.toNat = msg.length / 2 ^ 32 % 2 ^ 64
  holds : Md5.scheme.Holds msg (low ctx.state) ctx.buffer

theorem given_nil (ctx : Md5Context) : Given [] (md5Starts ctx) :=
  ⟨rfl, rfl, BlockHash.Scheme.holds_nil (S := Md5.scheme) ctx.buffer⟩

theorem toNat_and_mask (x : BitVec 64) (n : ℕ) (hn : n ≤ 64) :
    (x &&& .ofNat 64 (2 ^ n - 1)).toNat = x.toNat % 2 ^ n := by
  have hlt : 2 ^ n - 1 < 2 ^ 64 := by
    have := Nat.pow_le_pow_right (by decide : 0 < 2) hn
    omega
  rw [BitVec.toNat_and, BitVec.toNat_ofNat, Nat.mod_eq_of_lt hlt, Nat.and_two_pow_sub_one_eq_mod]

/-- `left`. -/
theorem Given.left {msg : List UInt8} {ctx : Md5Context} (h : Given msg ctx) :
    (ctx.total0 &&& 0x3F).toNat = msg.length % 64 := by
  have hmask := toNat_and_mask ctx.total0 6 (by decide)
  have hlit : (0x3F : BitVec 64) = .ofNat 64 (2 ^ 6 - 1) := rfl
  rw [hlit, hmask, h.total0]
  omega

/-- The count of the bytes. -/
theorem Given.count {msg d : List UInt8} {ctx : Md5Context} (h : Given msg ctx)
    (hd : d.length < 2 ^ 32) :
    (md5Count ctx d.length).total0.toNat = (msg ++ d).length % 2 ^ 32 ∧
      (md5Count ctx d.length).total1.toNat = (msg ++ d).length / 2 ^ 32 % 2 ^ 64 := by
  have h₀ := h.total0
  have h₁ := h.total1
  have htotal : (md5Count ctx d.length).total0.toNat = (msg ++ d).length % 2 ^ 32 := by
    have hmask := toNat_and_mask (ctx.total0 + .ofNat 64 d.length) 32 (by decide)
    have hlit : (0xFFFFFFFF : BitVec 64) = .ofNat 64 (2 ^ 32 - 1) := rfl
    rw [md5Count, hlit, hmask, BitVec.toNat_add, BitVec.toNat_ofNat, h₀, List.length_append]
    omega
  have hwrap : (md5Count ctx d.length).total0 < .ofNat 64 d.length ↔
      (msg.length + d.length) % 2 ^ 32 < d.length := by
    rw [BitVec.lt_def, htotal, BitVec.toNat_ofNat, List.length_append]
    omega
  have hone : (1 : BitVec 64).toNat = 1 := rfl
  have hcarry : (md5Count ctx d.length).total1 =
      if (md5Count ctx d.length).total0 < .ofNat 64 d.length then ctx.total1 + 1
      else ctx.total1 := rfl
  refine ⟨htotal, ?_⟩
  rw [hcarry, List.length_append]
  split_ifs with hlt <;> rw [hwrap] at hlt
  · rw [BitVec.toNat_add, h₁, hone]
    omega
  · rw [h₁]
    omega

/-! ## Updates -/

/-- In the loop over the whole blocks of `d`, once the message `msg` was given, the part of `d`
before `v.2` was given too. -/
structure Taken (msg d : List UInt8) (ctx : Md5Context) (v : Md5Context × List UInt8) : Prop where
  total0 : v.1.total0 = ctx.total0
  total1 : v.1.total1 = ctx.total1
  room : msg.length % 64 ≠ 0 → msg.length % 64 + v.2.length < 64
  given : ∃ msg', msg' ++ v.2 = msg ++ d ∧ msg'.length % 64 = msg.length % 64 ∧
    Md5.scheme.Holds msg' (low v.1.state) v.1.buffer

/-- One block. -/
theorem Taken.step {msg d : List UInt8} {ctx : Md5Context} {v : Md5Context × List UInt8}
    (h : Taken msg d ctx v) (hlen : 64 ≤ v.2.length) :
    Taken msg d ctx (md5Process v.1 (v.2.take 64), v.2.drop 64) := by
  obtain ⟨h₀, h₁, hroom, msg', happ, hmod, hholds⟩ := h
  have hzero : msg.length % 64 = 0 := by
    by_contra hne
    have := hroom hne
    omega
  have htake : (v.2.take 64).length = 64 := List.length_take_of_le hlen
  refine ⟨?_, ?_, fun hne => (hne hzero).elim, msg' ++ v.2.take 64, ?_, ?_, ?_⟩
  · rw [md5Process_total0, h₀]
  · rw [md5Process_total1, h₁]
  · simp only [List.append_assoc, List.take_append_drop, happ]
  · simp only [List.length_append, htake, Nat.add_mod_right, hmod]
  · have hblock := hholds.block (by decide) (hmod.trans hzero) htake
    rw [md5Process_state, md5Process_buffer, low_process]
    exact hblock

/-- The loop and the copy of what is left. -/
theorem updateBlocks_spec {msg d : List UInt8} {ctx : Md5Context}
    (h : Md5.scheme.Holds msg (low ctx.state) ctx.buffer)
    (hroom : msg.length % 64 ≠ 0 → msg.length % 64 + d.length < 64) :
    ∃ ctx', md5UpdateBlocks ctx d (msg.length % 64) = some ctx' ∧ ctx'.total0 = ctx.total0 ∧
      ctx'.total1 = ctx.total1 ∧ Md5.scheme.Holds (msg ++ d) (low ctx'.state) ctx'.buffer := by
  have hbody : ∀ v : Md5Context × List UInt8, Taken msg d ctx v →
      decide (v.2.length ≥ 64) = true →
      ∃ v', some (md5Process v.1 (v.2.take 64), v.2.drop 64) = some v' ∧ Taken msg d ctx v' ∧
        v'.2.length < v.2.length := by
    intro v hv hc
    have hlen : 64 ≤ v.2.length := of_decide_eq_true hc
    refine ⟨_, rfl, hv.step hlen, ?_⟩
    rw [List.length_drop]
    omega
  obtain ⟨⟨c, rest⟩, hrun, ⟨h₀, h₁, hroom', msg', happ, hmod, hholds⟩, hend⟩ :=
    Loop.run_spec (m := fun v => v.2.length) (n := d.length + 1) hbody
      (⟨rfl, rfl, hroom, msg, rfl, rfl, h⟩ : Taken msg d ctx (ctx, d)) (Nat.lt_succ_self _)
  have hrest : rest.length < 64 := by simpa using hend
  simp only [md5UpdateBlocks, hrun, Option.bind_eq_bind, Option.bind_some]
  rw [← happ]
  split_ifs with hpos
  · have hfit : msg.length % 64 + rest.length < 64 := by
      by_cases hzero : msg.length % 64 = 0
      · omega
      · exact hroom' hzero
    obtain ⟨buf, hstore, hbuf⟩ := c.buffer.exists_store hfit.le
    refine ⟨{ c with buffer := buf }, by rw [hstore, Option.map_some], h₀, h₁, ?_⟩
    rw [← hmod] at hfit hbuf
    exact hholds.copy (by decide) hfit hbuf
  · obtain rfl : rest = [] := List.eq_nil_of_length_eq_zero (by omega)
    exact ⟨c, rfl, h₀, h₁, by rwa [List.append_nil]⟩

/-- `md5_update` takes the message one piece further. -/
theorem Given.update {msg d : List UInt8} {ctx : Md5Context} (h : Given msg ctx)
    (hd : d.length < 2 ^ 32) : ∃ ctx', md5Update ctx d = some ctx' ∧ Given (msg ++ d) ctx' := by
  obtain ⟨h₀, h₁⟩ := h.count hd
  by_cases hnil : d.length ≤ 0
  · obtain rfl : d = [] := List.eq_nil_of_length_eq_zero (by omega)
    exact ⟨ctx, rfl, by rwa [List.append_nil]⟩
  simp only [md5Update, if_neg hnil, h.left]
  split_ifs with hfill
  · -- the block in the buffer is completed first
    obtain ⟨hne, hle⟩ := hfill
    have hlt := Nat.mod_lt msg.length (by decide : 64 > 0)
    have htake : msg.length % 64 + (d.take (64 - msg.length % 64)).length = 64 := by
      rw [List.length_take]
      omega
    obtain ⟨buf, hstore, hbuf⟩ := ctx.buffer.exists_store htake.le
    have hfull := h.holds.fill (by decide) htake hbuf buf
    have hmod : (msg ++ d.take (64 - msg.length % 64)).length % 64 = 0 := by
      rw [List.length_append]
      omega
    obtain ⟨ctx', hrest, ht₀, ht₁, hholds⟩ := @updateBlocks_spec
      (msg ++ d.take (64 - msg.length % 64)) (d.drop (64 - msg.length % 64))
      (md5Process { md5Count ctx d.length with buffer := buf } buf.val)
      (by rw [md5Process_state, low_process]; exact hfull) (fun hne' => (hne' hmod).elim)
    rw [hmod] at hrest
    rw [List.append_assoc, List.take_append_drop] at hholds
    refine ⟨ctx', ?_, by rw [ht₀]; exact h₀, by rw [ht₁]; exact h₁, hholds⟩
    have hstore' : (md5Count ctx d.length).buffer.store (d.take (64 - msg.length % 64))
      (msg.length % 64) = some buf := hstore
    rw [hstore', Option.bind_some, hrest]
  · obtain ⟨ctx', hrest, ht₀, ht₁, hholds⟩ := @updateBlocks_spec msg d (md5Count ctx d.length)
      h.holds (fun hne => by
        have := not_and.1 hfill hne
        omega)
    exact ⟨ctx', hrest, by rw [ht₀]; exact h₀, by rw [ht₁]; exact h₁, hholds⟩

/-- `md5_update` takes a message in pieces. -/
theorem Given.updates : ∀ {pieces : List (List UInt8)} {msg : List UInt8} {ctx : Md5Context},
    Given msg ctx → (∀ d ∈ pieces, d.length < 2 ^ 32) →
      ∃ ctx', pieces.foldlM md5Update ctx = some ctx' ∧ Given (msg ++ pieces.flatten) ctx'
  | [], msg, ctx, h, _ => ⟨ctx, rfl, by rwa [List.flatten_nil, List.append_nil]⟩
  | d :: pieces, msg, ctx, h, hlen => by
    rw [List.forall_mem_cons] at hlen
    obtain ⟨ctx₁, hupdate, h₁⟩ := h.update hlen.1
    obtain ⟨ctx', hrest, h'⟩ := h₁.updates hlen.2
    refine ⟨ctx', ?_, by rwa [List.flatten_cons, ← List.append_assoc]⟩
    rw [List.foldlM_cons, hupdate]
    exact hrest

/-! ## The digest -/

theorem putUlongLe_eq (n : BitVec 64) : putUlongLe n = leBytes 4 n.toNat := by
  simp only [putUlongLe, leBytes, BitVec.toNat_ushiftRight, Nat.shiftRight_eq_div_pow,
    Nat.div_div_eq_div_mul]

theorem putUlongLe_setWidth (n : BitVec 64) :
    putUlongLe n = leBytes 4 (n.setWidth 32).toNat := by
  rw [putUlongLe_eq, BitVec.toNat_setWidth, ← leBytes_mod 4 n.toNat]
  rfl

/-- `msglen` is the number of the bits. -/
theorem Given.msglen {msg : List UInt8} {ctx : Md5Context} (h : Given msg ctx) :
    putUlongLe (ctx.total0 <<< 3) ++ putUlongLe (ctx.total0 >>> 29 ||| ctx.total1 <<< 3) =
      leBytes 8 (8 * msg.length) := by
  have h₀ := h.total0
  have h₁ := h.total1
  have hpow : 256 ^ 4 = 2 ^ 32 := by decide
  have hlow : (ctx.total0 <<< 3).toNat % 256 ^ 4 = 8 * msg.length % 256 ^ 4 := by
    rw [BitVec.toNat_shiftLeft, h₀, Nat.shiftLeft_eq]
    omega
  have hhigh : (ctx.total0 >>> 29 ||| ctx.total1 <<< 3).toNat % 256 ^ 4 =
      8 * msg.length / 256 ^ 4 % 256 ^ 4 := by
    -- the three bits that leave `low` come below `total1`
    have hshift : (ctx.total1 <<< 3).toNat = 2 ^ 3 * (msg.length / 2 ^ 32 % 2 ^ 61) := by
      rw [BitVec.toNat_shiftLeft, h₁, Nat.shiftLeft_eq]
      omega
    have hsmall : (ctx.total0 >>> 29).toNat = msg.length % 2 ^ 32 / 2 ^ 29 := by
      rw [BitVec.toNat_ushiftRight, h₀, Nat.shiftRight_eq_div_pow]
    have hlt : msg.length % 2 ^ 32 / 2 ^ 29 < 2 ^ 3 := by omega
    rw [BitVec.toNat_or, hshift, hsmall, Nat.or_comm, ← Nat.two_pow_add_eq_or_of_lt hlt, hpow]
    omega
  calc putUlongLe (ctx.total0 <<< 3) ++ putUlongLe (ctx.total0 >>> 29 ||| ctx.total1 <<< 3)
      = leBytes 4 (8 * msg.length % 256 ^ 4) ++
          leBytes 4 (8 * msg.length / 256 ^ 4 % 256 ^ 4) := by
        rw [putUlongLe_eq, putUlongLe_eq, ← hlow, ← hhigh, leBytes_mod, leBytes_mod]
    _ = leBytes 8 (8 * msg.length) := by
        rw [leBytes_mod, leBytes_mod, ← leBytes_add]

/-- The two updates of `md5_finish` are the padding. -/
theorem padding_eq (n : ℕ) :
    md5Padding.take (if n % 64 < 56 then 56 - n % 64 else 120 - n % 64) ++ leBytes 8 (8 * n) =
      Md5.scheme.padding n := by
  have hlt := Nat.mod_lt n (by decide : 64 > 0)
  have hzeros : Md5.scheme.zeros n = (119 - n % 64) % 64 := by
    simp only [BlockHash.Scheme.zeros, Md5.scheme, length_leBytes]
  have hpadn : (if n % 64 < 56 then 56 - n % 64 else 120 - n % 64) = Md5.scheme.zeros n + 1 := by
    rw [hzeros]
    split_ifs <;> omega
  rw [hpadn, BlockHash.Scheme.padding, md5Padding, List.take_succ_cons, List.take_replicate,
    min_eq_left (by omega)]
  rfl

theorem Given.finish {msg : List UInt8} {ctx : Md5Context} (h : Given msg ctx) :
    md5Finish ctx = some (Md5.scheme.hash msg) := by
  have hlen : ∀ n, (md5Padding.take n).length < 2 ^ 32 := fun n => by
    rw [List.length_take, md5Padding, List.length_cons, List.length_replicate]
    omega
  obtain ⟨ctx₁, hupdate₁, h₁⟩ := h.update
    (hlen (if msg.length % 64 < 56 then 56 - msg.length % 64 else 120 - msg.length % 64))
  obtain ⟨ctx₂, hupdate₂, h₂⟩ := h₁.update (d := leBytes 8 (8 * msg.length)) (by simp)
  rw [List.append_assoc, padding_eq] at h₂
  simp only [md5Finish, h.left, h.msglen, hupdate₁, hupdate₂, Option.bind_eq_bind,
    Option.bind_some]
  simp only [putUlongLe_setWidth]
  exact congrArg some h₂.holds.hash_eq

/-- The digest of a message is its MD5 hash, in whatever pieces `md5_update` is given it. -/
theorem finish_stream (stack : Md5Context) (pieces : List (List UInt8))
    (hlen : ∀ d ∈ pieces, d.length < 2 ^ 31) :
    (pieces.foldlM md5Update (md5Starts stack)).bind md5Finish =
      some (Md5.scheme.hash pieces.flatten) := by
  have hlen' : ∀ d ∈ pieces, d.length < 2 ^ 32 := fun d hd => (hlen d hd).trans (by decide)
  obtain ⟨ctx, hrun, h⟩ := (given_nil stack).updates hlen'
  rw [hrun, Option.bind_some, h.finish, List.nil_append]

/-- A context of zeros. -/
def zeroContext : Md5Context := ⟨0, 0, Md5.init 64, ⟨List.replicate 64 0, List.length_replicate⟩⟩

/-- A message in two pieces. -/
theorem finish_stream_two :
    ([[0x61], [0x62, 0x63]].foldlM md5Update (md5Starts zeroContext)).bind md5Finish =
      some (Md5.scheme.hash [[0x61], [0x62, 0x63]].flatten) :=
  finish_stream zeroContext [[0x61], [0x62, 0x63]] (by decide)

/-! ## Files -/

/-- `md5_file` returns the hash of the file, or of what it has read when reading fails. -/
theorem md5File_eq (stack : Md5Context) (output : List UInt8) (file : Option (List UInt8))
    (error : Option ℕ) :
    md5File stack output file error =
      match file, error with
      | none, _ => some (1, output)
      | some content, none => some (0, Md5.scheme.hash content)
      | some content, some n => some (2, Md5.scheme.hash (content.take n)) := by
  cases file with
  | none => rfl
  | some content =>
    have hbody : ∀ (readable : List UInt8) (v : Md5Context × List UInt8),
        (∃ msg, msg ++ v.2 = readable ∧ Given msg v.1) → (v.2 ≠ [] : Bool) = true →
        ∃ v', (md5Update v.1 (v.2.take 1024)).map (fun ctx => (ctx, v.2.drop 1024)) = some v' ∧
          (∃ msg, msg ++ v'.2 = readable ∧ Given msg v'.1) ∧ v'.2.length < v.2.length := by
      rintro readable v ⟨msg, happ, h⟩ hne
      have hpos : 0 < v.2.length := List.length_pos_iff.2 (by simpa using hne)
      obtain ⟨ctx, hupdate, h'⟩ := h.update (d := v.2.take 1024) (by
        rw [List.length_take]
        omega)
      refine ⟨_, by rw [hupdate, Option.map_some], ⟨_, ?_, h'⟩, ?_⟩
      · rw [List.append_assoc, List.take_append_drop, happ]
      · rw [List.length_drop]
        omega
    have hread : ∀ readable : List UInt8, ∃ ctx rest,
        Loop.run (fun v : Md5Context × List UInt8 => v.2 ≠ [])
          (fun v => (md5Update v.1 (v.2.take 1024)).map fun ctx => (ctx, v.2.drop 1024))
          (readable.length + 1) (md5Starts stack, readable) = some (ctx, rest) ∧
        Given readable ctx := by
      intro readable
      obtain ⟨⟨ctx, rest⟩, hrun, ⟨msg, happ, h⟩, hend⟩ := Loop.run_spec
        (m := fun v : Md5Context × List UInt8 => v.2.length) (n := readable.length + 1)
        (hbody readable)
        (⟨[], rfl, given_nil stack⟩ :
          ∃ msg, msg ++ (md5Starts stack, readable).2 = readable ∧
            Given msg (md5Starts stack, readable).1) (Nat.lt_succ_self _)
      obtain rfl : rest = [] := by simpa using hend
      rw [List.append_nil] at happ
      exact ⟨ctx, [], hrun, happ ▸ h⟩
    cases error with
    | none =>
      obtain ⟨ctx, rest, hrun, h⟩ := hread content
      simp only [md5File, hrun, Option.bind_eq_bind, Option.bind_some, h.finish]
      rfl
    | some n =>
      obtain ⟨ctx, rest, hrun, h⟩ := hread (content.take n)
      simp only [md5File, hrun, Option.bind_eq_bind, Option.bind_some, h.finish]
      rfl

end Md5Context

end Agilefs
