import Agilefs.ByteFile

/-!
# Strings in a buffer

A buffer is the list of its bytes. `ofBuffer` is the string at its start, ended by the first NUL,
and `store` writes bytes inside a buffer. `store_append` is the rule for a text that grows at
the end of a prefix of its buffer.

`hexByte` is the text that `printf` has for a byte with the format `%02x`. Two texts of bytes are
equal only if the bytes are (`flatMap_hexByte_injective`).
-/

namespace CString

open ByteFile

/-- The string at the start of a buffer; `none` if no NUL ends it. -/
def ofBuffer (buf : List UInt8) : Option (List UInt8) :=
  if 0 ∈ buf then some (buf.takeWhile fun b => b ≠ 0) else none

/-- Bytes stored in a buffer at an offset; `none` if the buffer ends before. -/
def store (buf d : List UInt8) (off : ℕ) : Option (List UInt8) :=
  if off + d.length ≤ buf.length then some (pwrite buf d off) else none

/-- A text followed by a NUL is the string of its buffer. -/
theorem ofBuffer_append {text : List UInt8} (h : ∀ b ∈ text, b ≠ 0) (rest : List UInt8) :
    ofBuffer (text ++ 0 :: rest) = some text := by
  rw [ofBuffer, if_pos (by simp), List.takeWhile_append_of_pos fun b hb => by simpa using h b hb,
    List.takeWhile_cons_of_neg (by simp), List.append_nil]

/-- Bytes stored at the end of a prefix. -/
theorem store_append (text : List UInt8) {rest d : List UInt8} (h : d.length ≤ rest.length) :
    store (text ++ rest) d text.length = some (text ++ d ++ rest.drop d.length) := by
  rw [store, if_pos (by rw [List.length_append]; omega)]
  congr 1
  by_cases hd : d = []
  · simp [hd]
  · simp [pwrite, hd]

/-! ## Hexadecimal text -/

/-- A lower-case hexadecimal digit. -/
def hexDigit (n : ℕ) : UInt8 :=
  UInt8.ofNat (if n < 10 then 48 + n else 87 + n)

/-- The two digits of a byte, the high one first. -/
def hexByte (b : UInt8) : List UInt8 :=
  [hexDigit (b.toNat / 16), hexDigit (b.toNat % 16)]

@[simp] theorem length_hexByte (b : UInt8) : (hexByte b).length = 2 := rfl

theorem hexDigit_ne_zero : ∀ n : Fin 16, hexDigit n ≠ 0 := by decide

theorem hexDigit_injective : ∀ m n : Fin 16, hexDigit m = hexDigit n → m = n := by decide

theorem hexByte_ne_zero {b x : UInt8} (h : x ∈ hexByte b) : x ≠ 0 := by
  have hb := b.toNat_lt
  rw [hexByte, List.mem_cons, List.mem_singleton] at h
  rcases h with rfl | rfl
  · exact hexDigit_ne_zero ⟨b.toNat / 16, by omega⟩
  · exact hexDigit_ne_zero ⟨b.toNat % 16, by omega⟩

theorem hexByte_injective {b c : UInt8} (h : hexByte b = hexByte c) : b = c := by
  have hb := b.toNat_lt
  have hc := c.toNat_lt
  obtain ⟨hhigh, hlow, -⟩ := List.cons_eq_cons.1 h |>.imp_right List.cons_eq_cons.1
  have h₁ := hexDigit_injective ⟨b.toNat / 16, by omega⟩ ⟨c.toNat / 16, by omega⟩ hhigh
  have h₂ := hexDigit_injective ⟨b.toNat % 16, by omega⟩ ⟨c.toNat % 16, by omega⟩ hlow
  rw [Fin.mk.injEq] at h₁ h₂
  rw [← UInt8.toNat_inj]
  omega

@[simp] theorem length_flatMap_hexByte (l : List UInt8) :
    (l.flatMap hexByte).length = 2 * l.length := by
  induction l with
  | nil => rfl
  | cons b l ih =>
    rw [List.flatMap_cons, List.length_append, ih, length_hexByte, List.length_cons]
    omega

/-- Different bytes have different texts. -/
theorem flatMap_hexByte_injective : ∀ {l l' : List UInt8},
    l.flatMap hexByte = l'.flatMap hexByte → l = l'
  | [], [], _ => rfl
  | [], c :: l', h => by simp [hexByte] at h
  | b :: l, [], h => by simp [hexByte] at h
  | b :: l, c :: l', h => by
    obtain ⟨hbyte, hrest⟩ := List.append_inj h rfl
    rw [hexByte_injective hbyte, flatMap_hexByte_injective hrest]

end CString
