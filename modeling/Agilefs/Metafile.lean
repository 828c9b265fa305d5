import Agilefs.FuseLoops
import Mathlib.Data.Nat.Count

/-!
# Metafiles

What the writes of the client do to a metafile : the size in its header (`headerSize`) and the
keys of its blocks (`entryBytes`). A header is written over the header alone, and an entry over
that entry alone if the metafile has all entries before it. `Client.writeLoop_content` : the loop
of a write leaves the header alone.

`entryCount f n k` is how often the key `k` stands among the first `n` entries of `f`.
-/

namespace Agilefs

open Posix Function ByteFile

/-! ## The header -/

/-- The size `fuse_getattr` reports for a metafile. -/
def headerSize (f : ByteFile) : ℤ := offLoad f.length (f.pread 8 0)

/-- The metafile is empty or has a header. -/
def Headed (f : ByteFile) : Prop := f = [] ∨ 8 ≤ f.length

theorem headerSize_nil : headerSize [] = 0 :=
  offLoad_nil (by decide) (by decide)

theorem length_pread_header {f : ByteFile} (h : 8 ≤ f.length) : (f.pread 8 0).length = 8 := by
  rw [length_pread]
  omega

/-- With a header the size read does not depend on what the variable held. -/
theorem offLoad_header {f : ByteFile} (h : 8 ≤ f.length) (x : ℤ) :
    offLoad x (f.pread 8 0) = headerSize f := by
  rw [headerSize, offLoad_full _ (length_pread_header h), offLoad_full _ (length_pread_header h)]

theorem pread_writeHeader (f : ByteFile) (x : ℤ) :
    (f.pwrite (offBytes x) 0).pread 8 0 = offBytes x := by
  have := pread_pwrite_self f (offBytes x) 0
  rwa [length_offBytes] at this

theorem headed_writeHeader (f : ByteFile) (x : ℤ) : Headed (f.pwrite (offBytes x) 0) := by
  right
  rw [length_pwrite f (offBytes_ne_nil x), length_offBytes]
  omega

theorem headerSize_writeHeader (f : ByteFile) {x : ℤ} (h₁ : -2 ^ 63 ≤ x) (h₂ : x < 2 ^ 63) :
    headerSize (f.pwrite (offBytes x) 0) = x := by
  rw [headerSize, pread_writeHeader, offLoad_offBytes _ h₁ h₂]

/-- An entry is written behind the header. -/
theorem header_writeEntry {f : ByteFile} (h : Headed f) {d : List UInt8} (hd : d ≠ [])
    {off : ℕ} (hoff : 16 ≤ off) :
    Headed (f.pwrite d off) ∧ headerSize (f.pwrite d off) = headerSize f := by
  have hlen := length_pwrite f hd off
  have h8 : 8 ≤ (f.pwrite d off).length := by omega
  refine ⟨Or.inr h8, ?_⟩
  rcases h with rfl | h
  · -- the gap before the first entry is a header with the size `0`
    have hzero : pread (pwrite [] d off) 8 0 = offBytes 0 := by
      have hbytes : offBytes 0 = List.replicate 8 0 := by decide
      refine List.ext_getElem? fun i => ?_
      rw [getElem?_pread, getElem?_pwrite [] hd, hbytes, List.getElem?_replicate]
      split_ifs with h₁ h₂
      · rfl
      · omega
      · omega
      · rfl
    rw [headerSize_nil, headerSize, hzero, offLoad_offBytes _ (by decide) (by decide)]
  · rw [← offLoad_header h8 0, pread_pwrite_of_le f d (by omega) (by omega), offLoad_header h]

/-! ## The entries -/

/-- The metafile holds the entry of block `b`. -/
def HasEntry (f : ByteFile) (b : ℕ) : Prop := (entryBytes f b).length = 16

instance (f : ByteFile) (b : ℕ) : Decidable (HasEntry f b) :=
  inferInstanceAs (Decidable ((entryBytes f b).length = 16))

theorem hasEntry_iff {f : ByteFile} {b : ℕ} : HasEntry f b ↔ b * 16 + 32 ≤ f.length := by
  rw [HasEntry, entryBytes, length_pread]
  omega

/-- Reading an entry that is there replaces the key. -/
theorem HasEntry.load {f : ByteFile} {b : ℕ} (h : HasEntry f b) (k : Key) :
    (k.load (entryBytes f b)).val = entryBytes f b := by
  rw [Key.load_full k h]

theorem HasEntry.ne_nil {f : ByteFile} {b : ℕ} (h : HasEntry f b) : entryBytes f b ≠ [] :=
  List.ne_nil_of_length_pos (by rw [h]; decide)

theorem entryBytes_writeHeader (f : ByteFile) (x : ℤ) (b : ℕ) :
    entryBytes (f.pwrite (offBytes x) 0) b = entryBytes f b :=
  pread_pwrite_of_ge f _ (by rw [length_offBytes]; omega)

/-- At most 16 bytes are written over the entry of block `m`. -/
theorem entryBytes_pwrite {f : ByteFile} {b : ℕ} (hb : HasEntry f b) (m : ℕ) {d : List UInt8}
    (hd : d.length ≤ 16) :
    entryBytes (f.pwrite d (m * 16 + 16)) b =
      if b = m then overlay (entryBytes f b) d else entryBytes f b := by
  rw [hasEntry_iff] at hb
  split_ifs with hbm
  · subst hbm
    by_cases hnil : d = []
    · rw [hnil, pwrite_nil, overlay_nil]
    refine List.ext_getElem? fun i => ?_
    rw [entryBytes, entryBytes, overlay, getElem?_pread, getElem?_pwrite f hnil,
      List.getElem?_append, List.getElem?_drop, getElem?_pread]
    split_ifs with h₁ h₂ h₃ h₄ h₅ h₆ h₇ <;> try omega
    · congr 1
      omega
    · congr 1
      omega
    · rfl
  · rcases lt_or_gt_of_ne hbm with hlt | hgt
    · exact pread_pwrite_of_le f d (by omega) (by omega)
    · exact pread_pwrite_of_ge f d (by omega)

theorem entryBytes_writeEntry_self (f : ByteFile) (b : ℕ) (k : Key) :
    entryBytes (f.pwrite k.val (b * 16 + 16)) b = k.val := by
  have := pread_pwrite_self f k.val (b * 16 + 16)
  rwa [k.property] at this

/-- Writing one entry leaves the others that are there. -/
theorem entryBytes_writeEntry_of_ne {f : ByteFile} {b b' : ℕ} (k : Key) (hne : b' ≠ b)
    (h : HasEntry f b') : entryBytes (f.pwrite k.val (b * 16 + 16)) b' = entryBytes f b' := by
  rw [entryBytes_pwrite h b k.property.le, if_neg hne]

/-- Writing the entry of block `b` of a metafile that has all entries before. -/
theorem entryBytes_writeEntry {f : ByteFile} {b : ℕ} (h : b * 16 + 16 ≤ f.length) (k : Key)
    (b' : ℕ) : entryBytes (f.pwrite k.val (b * 16 + 16)) b' =
      if b' = b then k.val else entryBytes f b' := by
  split_ifs with hb
  · rw [hb, entryBytes_writeEntry_self]
  · rcases lt_or_gt_of_ne hb with hlt | hgt
    · exact entryBytes_writeEntry_of_ne k hb (hasEntry_iff.2 (by omega))
    · exact pread_pwrite_of_ge f _ (by rw [k.property]; omega)

theorem length_writeEntry (f : ByteFile) (b : ℕ) (k : Key) :
    (f.pwrite k.val (b * 16 + 16)).length = max f.length (b * 16 + 32) := by
  rw [length_pwrite f k.val_ne_nil, k.property]

/-- From `os` to `os'` the content of `n` changed only, and not the size in its header. -/
def HeaderKept {P : Type*} (os : Os P) (n : ℕ) (os' : Os P) : Prop :=
  ∃ f, os' = os.setContent n f ∧ (os.inodes n).length ≤ f.length ∧
    (Headed (os.inodes n) → Headed f ∧ headerSize f = headerSize (os.inodes n))

theorem HeaderKept.ino {P : Type*} {os os' : Os P} {n : ℕ} (h : HeaderKept os n os') {fd : ℤ}
    (hino : os.ino fd = some n) : os'.ino fd = some n := by
  obtain ⟨f, rfl, -⟩ := h
  exact hino

/-- An entry is written behind the header. -/
theorem HeaderKept.writeEntry {P : Type*} {os os' : Os P} {n : ℕ} (h : HeaderKept os n os')
    (b : ℕ) (k : Key) :
    HeaderKept os n (os'.setContent n ((os'.inodes n).pwrite k.val (b * 16 + 16))) := by
  obtain ⟨f, rfl, hlen, hheader⟩ := h
  rw [Os.setContent_setContent, Os.setContent_inodes, update_self]
  refine ⟨_, rfl, ?_, fun h => ?_⟩
  · rw [length_writeEntry]
    omega
  · obtain ⟨hhead, hsize⟩ := hheader h
    obtain ⟨hhead', hsize'⟩ := header_writeEntry hhead k.val_ne_nil
      (by omega : 16 ≤ b * 16 + 16)
    exact ⟨hhead', hsize'.trans hsize⟩

/-- The loop of a write changes the content of its file only, and not the size in the header. -/
theorem Client.writeLoop_content {B P : Type*} {doHash : List UInt8 → Key} {st : BlockStore B}
    {os : Os P} {fd : ℤ} {n : ℕ} (hino : os.ino fd = some n) {buf : List UInt8} {offset : ℤ}
    (h₀ : 0 ≤ offset) (hmax : offset + buf.length < 2 ^ 63) {store : B} {junk : Key}
    {w : WriteState B P}
    (hrun : writeLoop doHash st {} fd buf offset ⟨os, store, junk, offset, true⟩ = some w) :
    ∃ f, w.os = os.setContent n f ∧ (os.inodes n).length ≤ f.length ∧
      (Headed (os.inodes n) → Headed f ∧ headerSize f = headerSize (os.inodes n)) := by
  have hstart : HeaderKept os n os := ⟨_, (os.setContent_self n).symm, le_rfl, fun h => ⟨h, rfl⟩⟩
  refine (writeLoop_invariant (I := fun w => HeaderKept os n w.os) h₀ hmax
    (fun w hw => hw.ino hino) (fun w w' hw _ hle hlt hbody => ?_) hstart rfl hrun).1
  obtain ⟨_, _, _, _, _, -, -, -, -, -, hos, -⟩ :=
    writeBody_spec (hw.ino hino) h₀ hmax hle hlt hbody
  rw [hos]
  exact hw.writeEntry _ _

/-! ## Counting entries -/

/-- The number of blocks of a file of the given size. -/
def blocks (size : ℤ) : ℕ := (size.toNat + 4095) / 4096

theorem lt_blocks_iff {b : ℕ} {size : ℤ} : b < blocks size ↔ (b : ℤ) * 4096 < size := by
  unfold blocks
  omega

/-- How many of the first `n` entries are `k`. -/
def entryCount (f : ByteFile) (n : ℕ) (k : Key) : ℕ :=
  Nat.count (fun b => entryBytes f b = k.val) n

theorem entryCount_mono (f : ByteFile) {m n : ℕ} (h : m ≤ n) (k : Key) :
    entryCount f m k ≤ entryCount f n k :=
  Nat.count_monotone _ h

theorem entryCount_succ (f : ByteFile) (n : ℕ) (k : Key) :
    entryCount f (n + 1) k = entryCount f n k + if entryBytes f n = k.val then 1 else 0 :=
  Nat.count_succ _ n

theorem entryCount_congr {f f' : ByteFile} {n : ℕ}
    (h : ∀ b < n, entryBytes f' b = entryBytes f b) (k : Key) :
    entryCount f' n k = entryCount f n k :=
  le_antisymm (Nat.count_mono_left fun b hb hk => (h b hb).symm.trans hk)
    (Nat.count_mono_left fun b hb hk => (h b hb).trans hk)

/-- None of the blocks from `m` up to `n` has an entry. -/
def NoEntry (f : ByteFile) (m n : ℕ) : Prop :=
  ∀ b, m ≤ b → b < n → ¬HasEntry f b

/-- Blocks without an entry add nothing. -/
theorem entryCount_noEntry {f : ByteFile} {m n : ℕ} (h : m ≤ n) (hnone : NoEntry f m n) (k : Key) :
    entryCount f n k = entryCount f m k := by
  induction n, h using Nat.le_induction with
  | base => rfl
  | succ n hle ih =>
    rw [entryCount_succ, if_neg, add_zero, ih fun b hb hlt => hnone b hb (by omega)]
    intro hk
    exact hnone n hle (by omega) (by rw [HasEntry, hk, k.property])

theorem entryCount_max {f : ByteFile} {m n : ℕ} (hnone : NoEntry f m n) (k : Key) :
    entryCount f (max m n) k = entryCount f m k :=
  entryCount_noEntry (le_max_left m n) (fun b hb hlt => hnone b hb (by omega)) k

/-- A predicate that changes at one place is counted anew there. -/
theorem count_replace (p p' : ℕ → Prop) [DecidablePred p] [DecidablePred p'] {m : ℕ}
    (h : ∀ b, b ≠ m → (p' b ↔ p b)) : ∀ {n : ℕ}, m < n →
    Nat.count p' n + (if p m then 1 else 0) = Nat.count p n + if p' m then 1 else 0
  | 0, hm => by omega
  | n + 1, hm => by
    rw [Nat.count_succ, Nat.count_succ]
    by_cases hn : n = m
    · have hcongr : Nat.count p' n = Nat.count p n :=
        le_antisymm (Nat.count_mono_left fun b hb hp => (h b (by omega)).1 hp)
          (Nat.count_mono_left fun b hb hp => (h b (by omega)).2 hp)
      rw [hcongr, hn]
      omega
    · have := count_replace p p' h (by omega : m < n)
      simp only [h n hn]
      omega

/-- Another entry for a block that is counted. -/
theorem entryCount_replace {f f' : ByteFile} {b : ℕ} {x : List UInt8}
    (h : ∀ b', entryBytes f' b' = if b' = b then x else entryBytes f b') (k : Key) {n : ℕ}
    (hb : b < n) : entryCount f' n k + (if entryBytes f b = k.val then 1 else 0) =
      entryCount f n k + if x = k.val then 1 else 0 := by
  have hself : entryBytes f' b = x := by rw [h b, if_pos rfl]
  have hcount := count_replace (fun b => entryBytes f b = k.val) (fun b => entryBytes f' b = k.val)
    (fun b' hb' => by rw [h b', if_neg hb']) hb
  rwa [hself] at hcount

/-- A new last entry. -/
theorem entryCount_append {f f' : ByteFile} {b : ℕ} {x : List UInt8}
    (h : ∀ b', entryBytes f' b' = if b' = b then x else entryBytes f b') (k : Key) :
    entryCount f' (b + 1) k = entryCount f b k + if x = k.val then 1 else 0 := by
  have hcongr : entryCount f' b k = entryCount f b k :=
    entryCount_congr (fun b' hb' => by rw [h b', if_neg (by omega)]) k
  rw [entryCount_succ, hcongr, h b, if_pos rfl]

end Agilefs
