import Agilefs.Fuse

/-!
# The zero-key test

`__zero_hash` and `is_zero` of `common/misc/z-hash.h`, in the build with 16-byte keys. Both look
at the two halves of a key as `long`s. `is_zero` joins its two tests with `||`, so that one zero
half is enough, and where both fail it calls itself with the same key.

`zeroHash_iff` : `__zero_hash` is true of one key only. `isZero_eq` : how a call of `is_zero`
ends. `isZero_exact_iff` : it tells the zero key and `zero_hash_key` from the others for the zero
key only.
-/

namespace Agilefs

open ByteFile CInt

/-- `zero_hash_key`. -/
def zeroHashKey : Key :=
  ⟨[0x62, 0x0f, 0x0b, 0x67, 0xa9, 0x1f, 0x7f, 0x74, 0x15, 0x1b, 0xc5, 0xbe, 0x74, 0x5b, 0x71,
    0x10], rfl⟩

namespace Key

/-- `*(((long *)key) + i)`. -/
def long (key : Key) (i : ℕ) : ℤ := int64 (ofLe (pread key.val 8 (8 * i)))

/-- `__zero_hash`. -/
def zeroHash (key : Key) : Bool :=
  key.long 0 = zeroHashKey.long 0 && key.long 1 = zeroHashKey.long 1

/-- `is_zero`, with a bound on the calls. -/
def isZero : ℕ → Key → Option Bool
  | 0, _ => none
  | n + 1, key =>
    if key.long 0 = 0 || key.long 1 = 0 then some true else isZero n key

/-! ## The halves of a key -/

theorem length_pread_half (key : Key) {i : ℕ} (h : i < 2) :
    (pread key.val 8 (8 * i)).length = 8 := by
  rw [length_pread, key.property]
  omega

theorem ofLe_half_lt (key : Key) {i : ℕ} (h : i < 2) :
    0 ≤ (ofLe (pread key.val 8 (8 * i)) : ℤ) ∧ (ofLe (pread key.val 8 (8 * i)) : ℤ) < 2 ^ 64 := by
  have hlt := ofLe_lt (pread key.val 8 (8 * i))
  rw [key.length_pread_half h] at hlt
  omega

theorem long_inj {key key' : Key} {i : ℕ} (h : i < 2) :
    key.long i = key'.long i ↔ pread key.val 8 (8 * i) = pread key'.val 8 (8 * i) := by
  rw [long, long, int64_inj (key.ofLe_half_lt h) (key'.ofLe_half_lt h), Int.natCast_inj]
  refine ⟨ofLe_injective ?_, fun heq => by rw [heq]⟩
  rw [key.length_pread_half h, key'.length_pread_half h]

/-- A key is given by its halves. -/
theorem ext_long {key key' : Key} :
    key = key' ↔ key.long 0 = key'.long 0 ∧ key.long 1 = key'.long 1 := by
  have hsplit : ∀ k : Key, k.val = pread k.val 8 (8 * 0) ++ pread k.val 8 (8 * 1) := by
    intro k
    rw [pread, pread, Nat.mul_zero, List.drop_zero, Nat.mul_one,
      List.take_of_length_le (l := k.val.drop 8) (by simp [k.property]), List.take_append_drop]
  rw [long_inj (by omega), long_inj (by omega)]
  constructor
  · intro h
    rw [h]
    exact ⟨rfl, rfl⟩
  · intro h
    refine Subtype.ext ?_
    rw [hsplit key, hsplit key', h.1, h.2]

theorem zero_long {i : ℕ} (h : i < 2) : Key.zero.long i = 0 := by
  obtain rfl | rfl : i = 0 ∨ i = 1 := by omega
  · decide
  · decide

/-- `__zero_hash` compares a key with `zero_hash_key`. -/
theorem zeroHash_iff {key : Key} : key.zeroHash = true ↔ key = zeroHashKey := by
  rw [zeroHash, Bool.and_eq_true, decide_eq_true_eq, decide_eq_true_eq, ← ext_long]

theorem eq_zero_iff {key : Key} : key = Key.zero ↔ key.long 0 = 0 ∧ key.long 1 = 0 := by
  rw [ext_long, zero_long (by omega), zero_long (by omega)]

/-! ## How the test ends -/

/-- A key with a zero half is taken for zero. -/
theorem isZero_of_half {key : Key} (h : key.long 0 = 0 ∨ key.long 1 = 0) (n : ℕ) :
    isZero (n + 1) key = some true := by
  rw [isZero, if_pos (by simpa using h)]

/-- For a key without a zero half the test does not end. -/
theorem isZero_of_not_half {key : Key} (h : ¬(key.long 0 = 0 ∨ key.long 1 = 0)) :
    ∀ n, isZero n key = none
  | 0 => rfl
  | n + 1 => by rw [isZero, if_neg (by simpa using h), isZero_of_not_half h n]

/-- A call ends if and only if a half is zero, and always with true. -/
theorem isZero_eq {key : Key} {b : Bool} :
    (∃ n, isZero n key = some b) ↔ (key.long 0 = 0 ∨ key.long 1 = 0) ∧ b = true := by
  by_cases h : key.long 0 = 0 ∨ key.long 1 = 0
  · refine ⟨fun ⟨n, hn⟩ => ⟨h, ?_⟩, fun ⟨_, hb⟩ => ⟨1, by rw [isZero_of_half h, hb]⟩⟩
    cases n with
    | zero => cases hn
    | succ n => exact (Option.some.inj ((isZero_of_half h n).symm.trans hn)).symm
  · refine ⟨fun ⟨n, hn⟩ => ?_, fun ⟨h', _⟩ => absurd h' h⟩
    rw [isZero_of_not_half h] at hn
    cases hn

/-- The test ends, and is true of the keys of zeros and of `zero_hash_key`. -/
def Exact (key : Key) : Prop :=
  ∃ b, (∃ n, isZero n key = some b) ∧
    (b = true ↔ (∀ x ∈ key.val, x = 0) ∨ key.zeroHash = true)

theorem forall_mem_iff {key : Key} : (∀ x ∈ key.val, x = 0) ↔ key = Key.zero := by
  rw [← Subtype.coe_inj, Key.zero, List.eq_replicate_iff]
  exact ⟨fun h => ⟨key.property, h⟩, fun h => h.2⟩

theorem zeroHashKey_half : ¬(zeroHashKey.long 0 = 0 ∨ zeroHashKey.long 1 = 0) := by decide

/-- The test is exact for the zero key only. -/
theorem isZero_exact_iff (key : Key) : Exact key ↔ ∀ x ∈ key.val, x = 0 := by
  simp only [Exact, isZero_eq, forall_mem_iff, zeroHash_iff]
  constructor
  · rintro ⟨b, ⟨hhalf, hb⟩, hiff⟩
    refine (hiff.1 hb).resolve_right fun heq => zeroHashKey_half ?_
    rwa [heq] at hhalf
  · intro hzero
    exact ⟨true, ⟨Or.inl (eq_zero_iff.1 hzero).1, rfl⟩, fun _ => Or.inl hzero, fun _ => rfl⟩

/-- A key with one zero half. -/
def halfZero : Key := ⟨List.replicate 8 0 ++ List.replicate 8 1, rfl⟩

/-- The test does not end for `zero_hash_key`, and is true of a key with one zero half. -/
theorem isZero_counterexample :
    (∀ n, isZero n zeroHashKey = none) ∧ ¬Exact zeroHashKey ∧
      isZero 1 halfZero = some true ∧ ¬Exact halfZero := by
  have hloop := isZero_of_not_half zeroHashKey_half
  refine ⟨hloop, ?_, by decide, ?_⟩
  · rintro ⟨b, ⟨n, hn⟩, -⟩
    rw [hloop] at hn
    cases hn
  · rintro ⟨b, hend, hiff⟩
    have hwrong := hiff.1 (isZero_eq.1 hend).2
    revert hwrong
    decide

end Key

end Agilefs
