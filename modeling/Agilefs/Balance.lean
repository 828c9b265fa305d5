import Agilefs.Ingest
import Agilefs.LeastLoaded
import Agilefs.StoreSteps
import Mathlib.Data.Finset.Lattice.Fold
import Mathlib.Algebra.Order.Ring.Nat
import Mathlib.Order.Lattice.Nat

/-!
# Chunk files fill evenly

Puts never push onto a free list, so chunk files whose lists are empty stay so, and a put
that allocates lets a file grow. Without free chunks the search compares the sizes, and its
argmin makes each allocation a step of `LeastLoaded`, whether the write to the slot succeeds
or not.

`puts_balance` : in every state a run of puts reaches the sizes differ by at most what they
differed by at the start, or by one chunk, and a file grows beyond the largest size at the
start only when all files have this size.
-/

namespace Agilefs

open Function LeastLoaded

namespace ChunkFileInfo

/-- Every free list is empty. -/
def NoneFree (cfi : ChunkFileInfo) : Prop :=
  ∀ i < cfi.files, (cfi.fcls i).current = -1

/-- The sizes are multiples of `FSP_SIZE`. -/
def Aligned (cfi : ChunkFileInfo) : Prop :=
  ∀ i < cfi.files, fspSize ∣ cfi.curSize i

/-- The largest size. -/
def largest (cfi : ChunkFileInfo) : ℕ := (Finset.range cfi.files).sup cfi.curSize

/-- The difference between the largest and the smallest size. -/
def spread (cfi : ChunkFileInfo) : ℕ :=
  (Finset.range cfi.files).sup fun i =>
    (Finset.range cfi.files).sup fun j => cfi.curSize i - cfi.curSize j

variable {cfi cfi' : ChunkFileInfo}

theorem spread_le_iff {D : ℕ} :
    cfi.spread ≤ D ↔ Spread {i | i < cfi.files} D cfi.curSize := by
  simp only [spread, Finset.sup_le_iff, Finset.mem_range, Nat.sub_le_iff_le_add, Spread,
    Set.mem_ofPred_eq, Nat.add_comm]

theorem curSize_le_largest {i : ℕ} (hi : i < cfi.files) : cfi.curSize i ≤ cfi.largest :=
  Finset.le_sup (f := cfi.curSize) (Finset.mem_range.2 hi)

theorem Aligned.largest (h : cfi.Aligned) : fspSize ∣ cfi.largest := by
  rcases Nat.eq_zero_or_pos cfi.files with h0 | hpos
  · simp [ChunkFileInfo.largest, h0]
  · obtain ⟨i, hi, hmax⟩ := Finset.exists_mem_eq_sup (Finset.range cfi.files)
      ⟨0, Finset.mem_range.2 hpos⟩ cfi.curSize
    rw [ChunkFileInfo.largest, hmax]
    exact h i (Finset.mem_range.1 hi)

/-- Of two multiples of `FSP_SIZE` the larger is larger by a chunk. -/
theorem le_of_lt_add_fspSize {m n : ℕ} (hm : fspSize ∣ m) (hn : fspSize ∣ n)
    (h : m < n + fspSize) : m ≤ n := by
  obtain ⟨a, rfl⟩ := hm
  obtain ⟨b, rfl⟩ := hn
  unfold fspSize at h ⊢
  omega

theorem NoneFree.capcity_eq (h : cfi.NoneFree) {i : ℕ} (hi : i < cfi.files) :
    cfi.capcity i = cfi.curSize i := by
  simp [capcity, h i hi]

/-- The search returns the index of a file with the least space in use. -/
theorem capcity_le_of_getProperChunkFile {i : ℕ} (h : cfi.getProperChunkFile = i) :
    ∀ j < cfi.files, cfi.capcity i ≤ cfi.capcity j := by
  rcases cfi.foldl_properStep cfi.files with ⟨hacc, -⟩ | ⟨k, -, hacc, -, hmin, -⟩
  · rw [getProperChunkFile, hacc] at h
    omega
  · rw [getProperChunkFile, hacc] at h
    obtain rfl : k = i := by simpa using h
    exact hmin

/-- Below the limit the search finds a file. -/
theorem NoneFree.exists_proper (h : cfi.NoneFree) (hal : cfi.Aligned) (hpos : 0 < cfi.files)
    (hroom : ∀ i < cfi.files, (cfi.curSize i : ℤ) < maxChunkFileSize) :
    cfi.getProperChunkFile ≠ -1 := by
  rcases cfi.foldl_properStep cfi.files with ⟨-, hall⟩ | ⟨k, -, hacc, -⟩
  · have hcap := hall 0 hpos
    obtain ⟨c, hc⟩ := hal 0 hpos
    have hlt := hroom 0 hpos
    rw [h.capcity_eq hpos] at hcap
    unfold fspSize at hc
    unfold maxChunkFileSize at hlt
    omega
  · rw [getProperChunkFile, hacc]
    simp

/-- Without free chunks a slot is taken at the end of the file. -/
theorem NoneFree.takeSlot (h : cfi.NoneFree) {i : ℕ} (hi : i < cfi.files) :
    cfi.takeSlot i = some (cfi.grow i, (cfi.curSize i : ℤ)) := by
  simp [ChunkFileInfo.takeSlot, FreeChunkList.getFirstFreeChunk, h i hi]

/-- A file with the least space in use grows by a chunk. -/
theorem NoneFree.fills (h : cfi.NoneFree) {i : ℕ} (hi : i < cfi.files)
    (hg : cfi.getProperChunkFile = i) :
    Fills {i | i < cfi.files} fspSize cfi.curSize (cfi.grow i).curSize := by
  refine ⟨i, hi, fun j hj => ?_, rfl⟩
  have hle := capcity_le_of_getProperChunkFile hg j hj
  rw [h.capcity_eq hi, h.capcity_eq hj] at hle
  exact_mod_cast hle

end ChunkFileInfo

namespace Store

variable {K P : Type*}

/-- Every chunk file is below the limit before the put allocates. -/
def HasRoom (s : Store K P) (c : PutCall K) : Prop :=
  ¬Finds c.o.dbGet s.db c.key →
    ∀ i < s.cfi.files, (s.cfi.curSize i : ℤ) < maxChunkFileSize

/-- What one put does to the sizes, where `M` is the largest size at the start of the run : at
most one changes, by `FSP_SIZE`, and a size above `M` is created only when all are at least
`M`. -/
structure PutFills (M : ℕ) (s s' : Store K P) : Prop where
  change : s'.cfi.curSize = s.cfi.curSize ∨ ∃ i < s.cfi.files,
    s'.cfi.curSize = update s.cfi.curSize i (s.cfi.curSize i + fspSize)
  above : ∀ i < s.cfi.files, M < s'.cfi.curSize i → ∀ j < s.cfi.files, M ≤ s.cfi.curSize j

/-- What a run of puts keeps, where the sizes may differ by `D` and `M` bounds them at the
start. -/
structure Filling (D M : ℕ) (s : Store K P) : Prop where
  noneFree : s.cfi.NoneFree
  aligned : s.cfi.Aligned
  spread : Spread {i | i < s.cfi.files} D s.cfi.curSize
  reached : Reached {i | i < s.cfi.files} fspSize M s.cfi.curSize

variable [DecidableEq K] {whd : WriteHashDb K} {s s' : Store K P} {c : PutCall K}

/-- A put leaves the chunk files alone, or one of the least used ones grows. -/
theorem putStep_cfi (whd : WriteHashDb K) (h : s.cfi.NoneFree)
    (hs : putStep whd s c = some s') :
    s'.cfi = s.cfi ∨ ∃ i < s.cfi.files, s'.cfi = s.cfi.grow i ∧
      Fills {i | i < s.cfi.files} fspSize s.cfi.curSize s'.cfi.curSize := by
  obtain ⟨⟨s₁, ret⟩, hput, rfl⟩ := Option.map_eq_some_iff.1 hs
  by_cases hf : Finds c.o.dbGet s.db c.key
  · obtain ⟨bd, -, ⟨-, -, rfl⟩ | ⟨-, -, rfl⟩⟩ := putNewChunk_found whd hf hput
    · exact Or.inl rfl
    · exact Or.inl rfl
  · obtain ⟨i, hi, hg, -, off, ht, -, -⟩ := putNewChunk_not_found whd hf hput
    rw [h.takeSlot hi, Option.some.injEq, Prod.mk.injEq] at ht
    refine Or.inr ⟨i, hi, ht.1.symm, ?_⟩
    rw [← ht.1]
    exact h.fills hi hg

theorem Filling.step {D M : ℕ} (hD : fspSize ≤ D) (h : s.Filling D M)
    (hs : putStep whd s c = some s') : s'.Filling D M := by
  rcases putStep_cfi whd h.noneFree hs with hcfi | ⟨i, hi, hcfi, hfills⟩
  · exact ⟨hcfi ▸ h.noneFree, hcfi ▸ h.aligned, hcfi ▸ h.spread, hcfi ▸ h.reached⟩
  · have hfiles : s'.cfi.files = s.cfi.files := by rw [hcfi]; rfl
    refine ⟨?_, fun j hj => ?_, ?_, ?_⟩
    · rw [hcfi]
      exact h.noneFree
    · rw [hfiles] at hj
      rw [hcfi, ChunkFileInfo.grow_curSize]
      split_ifs
      · exact Nat.dvd_add (h.aligned i hi) (Nat.dvd_refl _)
      · exact h.aligned j hj
    · rw [hfiles]
      exact hfills.spread (Nat.zero_le _) hD h.spread
    · rw [hfiles]
      exact hfills.reached (Nat.zero_le _) h.reached

theorem Filling.putFills {D M : ℕ} (h : s.Filling D M) (hM : fspSize ∣ M)
    (hs : putStep whd s c = some s') : PutFills M s s' := by
  have hle : ∀ j < s.cfi.files, M < s.cfi.curSize j + fspSize → M ≤ s.cfi.curSize j :=
    fun j hj => ChunkFileInfo.le_of_lt_add_fspSize hM (h.aligned j hj)
  rcases putStep_cfi whd h.noneFree hs with hcfi | ⟨i, hi, hcfi, hfills⟩
  · refine ⟨Or.inl (congrArg _ hcfi), fun i hi hlt j hj => hle j hj ?_⟩
    rw [hcfi] at hlt
    exact h.reached i hi hlt j hj
  · exact ⟨Or.inr ⟨i, hi, congrArg _ hcfi⟩,
      fun k hk hlt j hj => hle j hj (hfills.passes h.reached hk hlt j hj)⟩

/-- Below the limit a put returns. -/
theorem Filling.isSome {D M : ℕ} (whd : WriteHashDb K) (h : s.Filling D M)
    (hpos : 0 < s.cfi.files) (hroom : s.HasRoom c) : (putStep whd s c).isSome := by
  by_cases hf : Finds c.o.dbGet s.db c.key
  · obtain ⟨bd, hbd⟩ := Option.isSome_iff_exists.1 hf.2
    rw [putStep, putNewChunk_present whd hf.1 hbd]
    split_ifs <;> rfl
  · obtain ⟨i, hi, hg, -⟩ := ChunkFileInfo.exists_file_of_ne
      (h.noneFree.exists_proper h.aligned hpos (hroom hf))
    simp only [putStep, putNewChunk, if_pos (dbGet_of_not_finds hf).1,
      blockWrite_eq hg (h.noneFree.takeSlot hi) c.key c.block.property]
    split_ifs <;> rfl

/-- Chunk files without free chunks fill evenly : in every state a run of puts reaches. -/
theorem puts_balance (whd : WriteHashDb K) (hfree : s.cfi.NoneFree) (hal : s.cfi.Aligned)
    {calls : List (PutCall K)} (hroom : Runs.Each (putStep whd) HasRoom s calls)
    (hrun : Runs.exec (putStep whd) s calls = some s') :
    s'.cfi.files = s.cfi.files ∧
    s'.cfi.spread ≤ max s.cfi.spread fspSize ∧
    (∀ i < s'.cfi.files, s.cfi.largest < s'.cfi.curSize i →
      ∀ j < s'.cfi.files, s.cfi.largest ≤ s'.cfi.curSize j) ∧
    ∀ c, s'.HasRoom c → (0 < s'.cfi.files → (putStep whd s' c).isSome) ∧
      ∀ s'', putStep whd s' c = some s'' → PutFills s.cfi.largest s' s'' := by
  have h₀ : s.Filling (max s.cfi.spread fspSize) s.cfi.largest :=
    ⟨hfree, hal, ChunkFileInfo.spread_le_iff.1 (le_max_left _ _),
      .of_le fun i hi => ChunkFileInfo.curSize_le_largest hi⟩
  obtain ⟨h, hfiles⟩ := hroom.exec_invariant
    (I := fun t => t.Filling (max s.cfi.spread fspSize) s.cfi.largest ∧
      t.cfi.files = s.cfi.files)
    (fun t c t' ht _ hs => ⟨ht.1.step (le_max_right _ _) hs, by
      rcases putStep_cfi whd ht.1.noneFree hs with hcfi | ⟨i, -, hcfi, -⟩
      · rw [hcfi, ht.2]
      · rw [hcfi, ← ht.2]
        rfl⟩) ⟨h₀, rfl⟩ hrun
  refine ⟨hfiles, ChunkFileInfo.spread_le_iff.2 h.spread, fun i hi hlt j hj => ?_,
    fun c hc => ⟨fun hpos => h.isSome whd hpos hc, fun s'' hs => h.putFills hal.largest hs⟩⟩
  exact ChunkFileInfo.le_of_lt_add_fspSize hal.largest (h.aligned j hj) (h.reached i hi hlt j hj)

/-- Two puts of new keys into two empty files; the write of the first fails. -/
theorem puts_balance_two :
    ∃ s', Runs.exec (putStep (.insert ℕ)) (empty 2 : Store ℕ ℕ)
        [⟨7, fillBlock 1, { pwrite := fun _ => none }⟩, ⟨8, fillBlock 2, {}⟩] = some s' ∧
      s'.cfi.curSize 0 = 4096 ∧ s'.cfi.curSize 1 = 4096 ∧
      s'.cfi.spread ≤ max (empty 2 : Store ℕ ℕ).cfi.spread fspSize := by
  have hput : (putStep (.insert ℕ) (empty 2 : Store ℕ ℕ)
      ⟨7, fillBlock 1, { pwrite := fun _ => none }⟩).map
        (fun s => (s.cfi.total, s.cfi.curSize 0, s.cfi.curSize 1)) = some (2, 4096, 0) := by
    decide +kernel
  have hrun : (Runs.exec (putStep (.insert ℕ)) (empty 2 : Store ℕ ℕ)
      [⟨7, fillBlock 1, { pwrite := fun _ => none }⟩, ⟨8, fillBlock 2, {}⟩]).map
        (fun s => (s.cfi.curSize 0, s.cfi.curSize 1)) = some (4096, 4096) := by
    decide +kernel
  obtain ⟨s', hs', hsizes⟩ := Option.map_eq_some_iff.1 hrun
  simp only [Prod.mk.injEq] at hsizes
  have hroom : Runs.Each (putStep (.insert ℕ)) HasRoom (empty 2 : Store ℕ ℕ)
      [⟨7, fillBlock 1, { pwrite := fun _ => none }⟩, ⟨8, fillBlock 2, {}⟩] := by
    refine ⟨fun _ i _ => by simp [empty, maxChunkFileSize], fun s hs => ⟨fun _ i hi => ?_,
      fun _ _ => trivial⟩⟩
    simp only [hs, Option.map_some, Option.some.injEq, Prod.mk.injEq] at hput
    rw [ChunkFileInfo.files, hput.1] at hi
    obtain rfl | rfl : i = 0 ∨ i = 1 := by
      change i < 2 at hi
      omega
    · simp [hput.2.1, maxChunkFileSize]
    · simp [hput.2.2, maxChunkFileSize]
  obtain ⟨-, hspread, -⟩ := puts_balance (.insert ℕ) (fun _ _ => rfl)
    (fun _ _ => by simp [empty]) hroom hs'
  exact ⟨s', hs', hsizes.1, hsizes.2, hspread⟩

end Store

end Agilefs
