import Agilefs.ByteFile

/-!
# Iterated hash functions

A hash function that works on blocks : a state is changed by a compression function for each block
of `width` bytes of the message, which is padded first to whole blocks, with its length at the end
(`Scheme`).

A program that is given the message in pieces keeps the state after the last whole block and, in a
buffer of one block, the bytes behind it : `Scheme.Holds`. The rules say what a copy into the
buffer (`Holds.copy`), a block completed in the buffer (`Holds.fill`) and a block taken from the
message itself (`Holds.block`) bring about, and `Holds.hash_eq` what the state is once the padding
has been given too.
-/

namespace BlockHash

open ByteFile

/-! ## Blocks -/

/-- An array of `w` bytes. -/
abbrev Block (w : ℕ) := {b : List UInt8 // b.length = w}

/-- `d` copied into the array at `off`; `none` if the array ends before. -/
def Block.store {w : ℕ} (b : Block w) (d : List UInt8) (off : ℕ) : Option (Block w) :=
  if h : off + d.length ≤ w then
    some ⟨pwrite b.val d off, (length_pwrite_of_le (h.trans b.property.ge)).trans b.property⟩
  else none

theorem Block.exists_store {w : ℕ} (b : Block w) {d : List UInt8} {off : ℕ}
    (h : off + d.length ≤ w) : ∃ b', b.store d off = some b' ∧ b'.val = pwrite b.val d off :=
  ⟨_, dif_pos h, rfl⟩

/-- What is before the end of a copy. -/
theorem take_pwrite {buf d : List UInt8} {off : ℕ} (h : off ≤ buf.length) :
    (pwrite buf d off).take (off + d.length) = buf.take off ++ d := by
  by_cases hd : d = []
  · simp [hd]
  · have hlen : (buf.take off ++ d).length = off + d.length := by
      rw [List.length_append, List.length_take, min_eq_left h]
    rw [pwrite, if_neg hd, List.take_append_of_le_length h, ← hlen, List.take_left]

/-! ## Chains of blocks -/

section Chain

variable {σ : Type*} (compress : σ → List UInt8 → σ) (w : ℕ)

/-- The state after the first `n` blocks. -/
def chain : ℕ → σ → List UInt8 → σ
  | 0, s, _ => s
  | n + 1, s, l => chain n (compress s (l.take w)) (l.drop w)

/-- The state after the whole blocks. -/
def absorb (s : σ) (l : List UInt8) : σ := chain compress w (l.length / w) s l

/-- What is behind the whole blocks. -/
def residue (l : List UInt8) : List UInt8 := l.drop (w * (l.length / w))

variable {compress w}

theorem chain_append : ∀ {n : ℕ} {s : σ} {l l' : List UInt8}, w * n ≤ l.length →
    chain compress w n s (l ++ l') = chain compress w n s l
  | 0, _, _, _, _ => rfl
  | n + 1, s, l, l', h => by
    rw [Nat.mul_succ] at h
    rw [chain, chain, List.take_append_of_le_length (by omega),
      List.drop_append_of_le_length (by omega)]
    exact chain_append (by rw [List.length_drop]; omega)

theorem chain_succ : ∀ {n : ℕ} {s : σ} {l : List UInt8},
    chain compress w (n + 1) s l =
      compress (chain compress w n s l) ((l.drop (w * n)).take w)
  | 0, s, l => by simp [chain]
  | n + 1, s, l => by
    rw [chain, chain_succ, List.drop_drop, Nat.mul_succ, Nat.add_comm w]
    rfl

theorem length_residue (l : List UInt8) : (residue w l).length = l.length % w := by
  have := Nat.div_add_mod l.length w
  rw [residue, List.length_drop]
  omega

theorem residue_eq_nil {l : List UInt8} (h : l.length % w = 0) : residue w l = [] :=
  List.eq_nil_of_length_eq_zero ((length_residue l).trans h)

/-- Bytes that complete no block. -/
theorem absorb_short (hw : 0 < w) {s : σ} {l d : List UInt8} (h : l.length % w + d.length < w) :
    absorb compress w s (l ++ d) = absorb compress w s l ∧
      residue w (l ++ d) = residue w l ++ d := by
  have hdiv := Nat.div_add_mod l.length w
  have hcount : (l ++ d).length / w = l.length / w := by
    rw [List.length_append, ← hdiv, add_assoc, Nat.mul_add_div hw, Nat.div_eq_of_lt h, add_zero,
      Nat.mul_add_div hw, Nat.div_eq_of_lt (Nat.mod_lt _ hw), add_zero]
  rw [absorb, absorb, residue, residue, hcount]
  exact ⟨chain_append (by omega), List.drop_append_of_le_length (by omega)⟩

/-- Bytes that complete one block. -/
theorem absorb_fill (hw : 0 < w) {s : σ} {l d : List UInt8} (h : l.length % w + d.length = w) :
    absorb compress w s (l ++ d) = compress (absorb compress w s l) (residue w l ++ d) := by
  have hdiv := Nat.div_add_mod l.length w
  have hcount : (l ++ d).length / w = l.length / w + 1 := by
    rw [List.length_append, ← hdiv, add_assoc, h, Nat.mul_add_div hw, Nat.div_self hw,
      Nat.mul_add_div hw, Nat.div_eq_of_lt (Nat.mod_lt _ hw), add_zero]
  have hle : w * (l.length / w) ≤ l.length := by omega
  rw [absorb, hcount, chain_succ, chain_append hle, List.drop_append_of_le_length hle, absorb,
    residue]
  congr 1
  rw [List.take_of_length_le]
  rw [List.length_append, List.length_drop]
  omega

end Chain

/-! ## Schemes -/

/-- A hash function by its parts : the bytes of a block, the state at the start, the compression
function, the bytes of the length that end the padding, and the hash read off the last state. -/
structure Scheme (σ : Type*) where
  width : ℕ
  init : σ
  compress : σ → List UInt8 → σ
  lengthBytes : ℕ → List UInt8
  output : σ → List UInt8

namespace Scheme

variable {σ : Type*} (S : Scheme σ)

/-- The zeros of the padding of a message of `n` bytes. -/
def zeros (n : ℕ) : ℕ := (2 * S.width - 1 - (S.lengthBytes n).length - n % S.width) % S.width

/-- The padding of a message of `n` bytes : a one bit, zeros, and the length. -/
def padding (n : ℕ) : List UInt8 :=
  0x80 :: List.replicate (S.zeros n) 0 ++ S.lengthBytes n

/-- The hash of a message. -/
def hash (msg : List UInt8) : List UInt8 :=
  S.output (absorb S.compress S.width S.init (msg ++ S.padding msg.length))

/-- The state and the buffer of a program that was given the message `msg` so far. -/
structure Holds (msg : List UInt8) (s : σ) (buf : Block S.width) : Prop where
  state : s = absorb S.compress S.width S.init msg
  buffer : buf.val.take (msg.length % S.width) = residue S.width msg

variable {S} {msg d : List UInt8} {s : σ} {buf buf' : Block S.width}

/-- A program at its start. -/
theorem holds_nil (buf : Block S.width) : S.Holds [] S.init buf := by
  refine ⟨?_, ?_⟩
  · rw [absorb, List.length_nil, Nat.zero_div, chain]
  · rw [List.length_nil, Nat.zero_mod, List.take_zero, residue_eq_nil (Nat.zero_mod _)]

/-- A copy into the buffer behind what it holds. -/
theorem Holds.copy (hw : 0 < S.width) (h : S.Holds msg s buf)
    (hlen : msg.length % S.width + d.length < S.width)
    (hbuf : buf'.val = pwrite buf.val d (msg.length % S.width)) : S.Holds (msg ++ d) s buf' := by
  obtain ⟨hstate, hres⟩ := @absorb_short _ S.compress _ hw S.init _ _ hlen
  have hmod : (msg ++ d).length % S.width = msg.length % S.width + d.length := by
    rw [List.length_append, Nat.add_mod, Nat.mod_eq_of_lt (by omega : d.length < S.width),
      Nat.mod_eq_of_lt hlen]
  have hle : msg.length % S.width ≤ buf.val.length := by
    rw [buf.property]
    exact (Nat.mod_lt _ hw).le
  refine ⟨h.state.trans hstate.symm, ?_⟩
  rw [hmod, hbuf, take_pwrite hle, h.buffer, hres]

/-- A copy that completes the block in the buffer, which is compressed. What the buffer holds then
does not matter. -/
theorem Holds.fill (hw : 0 < S.width) (h : S.Holds msg s buf)
    (hlen : msg.length % S.width + d.length = S.width)
    (hbuf : buf'.val = pwrite buf.val d (msg.length % S.width)) (other : Block S.width) :
    S.Holds (msg ++ d) (S.compress s buf'.val) other := by
  have hle : msg.length % S.width ≤ buf.val.length := by
    rw [buf.property]
    exact (Nat.mod_lt _ hw).le
  have hall : buf'.val = residue S.width msg ++ d := by
    rw [← h.buffer, ← take_pwrite hle, hlen, ← hbuf, List.take_of_length_le buf'.property.le]
  have hmod : (msg ++ d).length % S.width = 0 := by
    rw [List.length_append, Nat.add_mod, ← Nat.add_mod_mod, Nat.mod_mod, Nat.add_mod_mod, hlen,
      Nat.mod_self]
  refine ⟨?_, by rw [hmod, List.take_zero, residue_eq_nil hmod]⟩
  rw [absorb_fill hw hlen, ← h.state, hall]

/-- A whole block compressed where it stands in the message. -/
theorem Holds.block (hw : 0 < S.width) (h : S.Holds msg s buf) (hmsg : msg.length % S.width = 0)
    (hlen : d.length = S.width) : S.Holds (msg ++ d) (S.compress s d) buf := by
  have hmod : (msg ++ d).length % S.width = 0 := by
    rw [List.length_append, hlen, Nat.add_mod_right, hmsg]
  refine ⟨?_, by rw [hmod, List.take_zero, residue_eq_nil hmod]⟩
  rw [absorb_fill hw (by rw [hmsg, hlen, zero_add]), ← h.state, residue_eq_nil hmsg,
    List.nil_append]

/-- The hash of a message is read off the state once its padding was given too. -/
theorem Holds.hash_eq (h : S.Holds (msg ++ S.padding msg.length) s buf) :
    S.output s = S.hash msg := by
  rw [h.state]
  rfl

end Scheme

end BlockHash
