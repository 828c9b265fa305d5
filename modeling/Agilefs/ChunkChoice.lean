import Agilefs.Ingest

/-!
# The choice of a chunk file

`get_proper_chunk_file` is to return a file with the least space in use, and `-1` only if
every file is full. It computes the space in use from `current`, the index of the last free
chunk, as if that were the number of free chunks : `capcity_eq` says that a file with free
chunks counts as one chunk fuller than it is.

`choosesWell_iff` is what follows. The choice is as intended if and only if a least used
file has no free chunk at all, or a least used file is below the limit by more than a
chunk and stands before every file without free chunks that has just one chunk more in use.
Two ways to miss this are in `choice_counterexample` : a full file whose one free chunk is
not found, and a file chosen although another has a chunk less in use.
-/

namespace Agilefs

open Posix

namespace ChunkFileInfo

/-- The number of free chunks of file `i`. -/
def freeCount (cfi : ChunkFileInfo) (i : ℕ) : ℤ := (cfi.fcls i).current + 1

/-- The bytes in use in file `i`. -/
def used (cfi : ChunkFileInfo) (i : ℕ) : ℤ := cfi.curSize i - cfi.freeCount i * 4096

/-- The free chunks are inside the files, whose sizes are multiples of `FSP_SIZE` of at most
4 GB. -/
structure Measured (cfi : ChunkFileInfo) : Prop where
  sized : cfi.Sized
  freeCount_nonneg : ∀ i < cfi.files, 0 ≤ cfi.freeCount i
  freeCount_le : ∀ i < cfi.files, cfi.freeCount i * 4096 ≤ cfi.curSize i

/-- File `i` is a least used file. -/
def Least (cfi : ChunkFileInfo) (i : ℕ) : Prop :=
  i < cfi.files ∧ ∀ j < cfi.files, cfi.used i ≤ cfi.used j

/-- What the search is for. -/
structure ChoosesWell (cfi : ChunkFileInfo) : Prop where
  full : cfi.getProperChunkFile = -1 →
    ∀ i < cfi.files, cfi.freeCount i = 0 ∧ (cfi.curSize i : ℤ) = maxChunkFileSize
  least : cfi.getProperChunkFile ≠ -1 →
    ∃ i : ℕ, cfi.getProperChunkFile = i ∧ cfi.Least i ∧ cfi.used i < maxChunkFileSize

/-- Where the search finds it. -/
def LeastFound (cfi : ChunkFileInfo) : Prop :=
  cfi.files = 0 ∨ (∃ i, cfi.Least i ∧ cfi.freeCount i = 0) ∨
    ∃ i, cfi.Least i ∧ cfi.used i + 4096 < maxChunkFileSize ∧
      ∀ j < i, cfi.freeCount j = 0 → cfi.used j ≠ cfi.used i + 4096

variable {cfi : ChunkFileInfo} {i : ℕ}

/-- A file with free chunks counts as one chunk fuller than it is. -/
theorem capcity_eq (cfi : ChunkFileInfo) (i : ℕ) :
    cfi.capcity i = cfi.used i + if cfi.freeCount i = 0 then 0 else 4096 := by
  have hfree : cfi.freeCount i = 0 ↔ (cfi.fcls i).current = -1 := by
    unfold freeCount
    omega
  simp only [capcity, used, hfree, Int.shiftLeft_eq]
  unfold freeCount
  split_ifs <;> omega

theorem used_le_capcity (cfi : ChunkFileInfo) (i : ℕ) :
    cfi.used i ≤ cfi.capcity i ∧ cfi.capcity i ≤ cfi.used i + 4096 := by
  rw [capcity_eq]
  split_ifs <;> omega

theorem Measured.used_mod (h : cfi.Measured) (hi : i < cfi.files) : cfi.used i % 4096 = 0 := by
  have := (h.sized i hi).1
  unfold used
  omega

theorem Measured.used_le (h : cfi.Measured) (hi : i < cfi.files) :
    cfi.used i ≤ maxChunkFileSize := by
  have := (h.sized i hi).2
  have := h.freeCount_nonneg i hi
  unfold used maxChunkFileSize
  omega

/-- A file is wholly in use if it has no free chunk and no room to grow. -/
theorem Measured.used_eq_max (h : cfi.Measured) (hi : i < cfi.files) :
    cfi.used i = maxChunkFileSize ↔
      cfi.freeCount i = 0 ∧ (cfi.curSize i : ℤ) = maxChunkFileSize := by
  have := (h.sized i hi).2
  have := h.freeCount_nonneg i hi
  unfold used maxChunkFileSize
  omega

theorem Least.of_le {k : ℕ} (hk : cfi.Least k) (hi : i < cfi.files)
    (hle : cfi.used i ≤ cfi.used k) : cfi.Least i :=
  ⟨hi, fun j hj => hle.trans (hk.2 j hj)⟩

/-- The search that finds no file. -/
theorem Measured.choosesWell_iff_of_none (h : cfi.Measured)
    (hg : cfi.getProperChunkFile = -1) (hall : ∀ j < cfi.files, 0xffffffff ≤ cfi.capcity j) :
    cfi.ChoosesWell ↔ cfi.LeastFound := by
  constructor
  · intro hw
    by_cases hz : cfi.files = 0
    · exact Or.inl hz
    · have hpos : 0 < cfi.files := Nat.pos_of_ne_zero hz
      have hmax : ∀ j < cfi.files, cfi.used j = maxChunkFileSize := fun j hj =>
        (h.used_eq_max hj).2 (hw.full hg j hj)
      refine Or.inr (Or.inl ⟨0, ⟨hpos, fun j hj => ?_⟩, (hw.full hg 0 hpos).1⟩)
      rw [hmax 0 hpos, hmax j hj]
  · intro hf
    refine ⟨fun _ j hj => ?_, fun hne => (hne hg).elim⟩
    rw [← h.used_eq_max hj]
    have hle := h.used_le hj
    rcases hf with hz | ⟨k, hk, hk0⟩ | ⟨k, hk, hlt, -⟩
    · omega
    · -- a least used file without free chunks is counted at its use
      have hcap := hall k hk.1
      rw [capcity_eq, if_pos hk0] at hcap
      have hmod := h.used_mod hk.1
      have hkj := hk.2 j hj
      unfold maxChunkFileSize at hle ⊢
      omega
    · have hcap := hall k hk.1
      have hmod := h.used_mod hk.1
      have := cfi.used_le_capcity k
      unfold maxChunkFileSize at hlt
      omega

/-- The search that finds file `i`. -/
theorem Measured.choosesWell_iff_of_some (h : cfi.Measured) (hi : i < cfi.files)
    (hg : cfi.getProperChunkFile = i) (hlt : cfi.capcity i < 0xffffffff)
    (hmin : ∀ j < cfi.files, cfi.capcity i ≤ cfi.capcity j)
    (hfirst : ∀ j < i, cfi.capcity i < cfi.capcity j) :
    cfi.ChoosesWell ↔ cfi.LeastFound := by
  have hcap := cfi.used_le_capcity i
  constructor
  · intro hw
    obtain ⟨i', hi', hleast, -⟩ := hw.least (by omega)
    obtain rfl : i = i' := by omega
    by_cases hfree : cfi.freeCount i = 0
    · exact Or.inr (Or.inl ⟨i, hleast, hfree⟩)
    · have hi' : cfi.capcity i = cfi.used i + 4096 := by rw [capcity_eq, if_neg hfree]
      refine Or.inr (Or.inr ⟨i, hleast, ?_, fun j hj hj0 hused => ?_⟩)
      · unfold maxChunkFileSize
        omega
      · have hj' := hfirst j hj
        rw [cfi.capcity_eq j, if_pos hj0] at hj'
        omega
  · intro hf
    have hleast : cfi.Least i := by
      rcases hf with hz | ⟨k, hk, hk0⟩ | ⟨k, hk, -, hbefore⟩
      · omega
      · have hik := hmin k hk.1
        rw [cfi.capcity_eq k, if_pos hk0] at hik
        exact hk.of_le hi (by omega)
      · have hik := hmin k hk.1
        have hki := hk.2 i hi
        have hmod := h.used_mod hi
        have hmodk := h.used_mod hk.1
        have hcapk := cfi.used_le_capcity k
        by_cases hfree : cfi.freeCount i = 0
        · have hi' : cfi.capcity i = cfi.used i := by rw [capcity_eq, if_pos hfree, add_zero]
          refine hk.of_le hi ?_
          -- a tie with the first least used file is settled by the order of the files
          by_contra hgt
          rcases lt_trichotomy i k with hlt' | rfl | hlt'
          · exact hbefore i hlt' hfree (by omega)
          · omega
          · have := hfirst k hlt'
            omega
        · have hi' : cfi.capcity i = cfi.used i + 4096 := by rw [capcity_eq, if_neg hfree]
          exact hk.of_le hi (by omega)
    refine ⟨fun hne => by omega, fun _ => ⟨i, hg, hleast, ?_⟩⟩
    unfold maxChunkFileSize
    omega

/-- The choice is as intended if and only if a least used file stands where the search finds
it. Without a choice the assertion in `block_write` fails. -/
theorem choosesWell_iff {K P : Type*} [DecidableEq K] (cfi : ChunkFileInfo)
    (h : cfi.Measured) :
    (cfi.ChoosesWell ↔ cfi.LeastFound) ∧
      (cfi.getProperChunkFile = -1 → ∀ (whd : WriteHashDb K) (o : Outcome) (key : K)
        (buf : List UInt8) (size : ℕ) (db : Db K) (os : Os P),
          Store.blockWrite whd o key buf size ⟨cfi, db, os⟩ = none) := by
  refine ⟨?_, fun hg whd o key buf size db os => by simp [Store.blockWrite, hg]⟩
  rcases cfi.foldl_properStep cfi.files with ⟨hacc, hall⟩ | ⟨i, hi, hacc, hlt, hmin, hfirst⟩
  · exact h.choosesWell_iff_of_none (by rw [getProperChunkFile, hacc]) hall
  · exact h.choosesWell_iff_of_some hi (by rw [getProperChunkFile, hacc]) hlt hmin hfirst

/-! ## Two files -/

/-- A list with one free chunk, that at offset `0`. -/
def oneFree : FreeChunkList :=
  ⟨1024, 0, fun q => if q.val = 0 then some fun _ => 0 else none⟩

/-- Files of the given sizes and free lists. -/
def ofSizes (l : List (ℕ × FreeChunkList)) : ChunkFileInfo :=
  ⟨l.length, fun i => i + 3, fun i => ((l[i]?).map Prod.fst).getD 0,
    fun i => ((l[i]?).map Prod.snd).getD .empty⟩

theorem measured_ofSizes_pair {a b : ℕ × FreeChunkList}
    (h : ∀ x ∈ [a, b], x.1 % 4096 = 0 ∧ x.1 ≤ 2 ^ 32 ∧ 0 ≤ x.2.current + 1 ∧
      (x.2.current + 1) * 4096 ≤ x.1) : (ofSizes [a, b]).Measured := by
  have ha := h a (by simp)
  have hb := h b (by simp)
  have hfiles : (ofSizes [a, b]).files = 2 := rfl
  refine ⟨fun i hi => ?_, fun i hi => ?_, fun i hi => ?_⟩ <;> rw [hfiles] at hi <;>
    obtain rfl | rfl : i = 0 ∨ i = 1 := by omega
  · exact ⟨ha.1, ha.2.1⟩
  · exact ⟨hb.1, hb.2.1⟩
  · exact ha.2.2.1
  · exact hb.2.2.1
  · exact ha.2.2.2
  · exact hb.2.2.2

/-- An empty file and one with a chunk in use : the first is found. -/
theorem choosesWell_empty_used :
    (ofSizes [(0, .empty), (4096, .empty)]).ChoosesWell := by
  have hm : (ofSizes [(0, .empty), (4096, .empty)]).Measured :=
    measured_ofSizes_pair (by decide)
  refine ((choosesWell_iff (K := ℕ) (P := ℕ) _ hm).1).2 (Or.inr (Or.inl ⟨0, ⟨by decide, ?_⟩, rfl⟩))
  intro j hj
  obtain rfl | rfl : j = 0 ∨ j = 1 := by
    change j < 2 at hj
    omega
  · exact le_rfl
  · decide

/-- Of two full files the second has a free chunk, and no file is found. Of two files of one
chunk each, the first in use and the second free, the first is chosen. -/
theorem choice_counterexample :
    ((ofSizes [(2 ^ 32, .empty), (2 ^ 32, oneFree)]).Measured ∧
      (ofSizes [(2 ^ 32, .empty), (2 ^ 32, oneFree)]).getProperChunkFile = -1 ∧
      (ofSizes [(2 ^ 32, .empty), (2 ^ 32, oneFree)]).freeCount 1 = 1 ∧
      ¬(ofSizes [(2 ^ 32, .empty), (2 ^ 32, oneFree)]).ChoosesWell) ∧
    ((ofSizes [(4096, .empty), (4096, oneFree)]).Measured ∧
      (ofSizes [(4096, .empty), (4096, oneFree)]).getProperChunkFile = 0 ∧
      (ofSizes [(4096, .empty), (4096, oneFree)]).used 0 = 4096 ∧
      (ofSizes [(4096, .empty), (4096, oneFree)]).used 1 = 0 ∧
      ¬(ofSizes [(4096, .empty), (4096, oneFree)]).ChoosesWell) := by
  have hg : (ofSizes [(2 ^ 32, .empty), (2 ^ 32, oneFree)]).getProperChunkFile = -1 := by decide
  have hg' : (ofSizes [(4096, .empty), (4096, oneFree)]).getProperChunkFile = 0 := by decide
  refine ⟨⟨measured_ofSizes_pair (by decide), hg, rfl, fun hw => ?_⟩,
    ⟨measured_ofSizes_pair (by decide), hg', rfl, rfl, fun hw => ?_⟩⟩
  · exact absurd (hw.full hg 1 (by decide)).1 (by decide)
  · obtain ⟨i, hi, hleast, -⟩ := hw.least (by rw [hg']; decide)
    obtain rfl : i = 0 := by omega
    exact absurd (hleast.2 1 (by decide)) (by decide)

end ChunkFileInfo

end Agilefs
