import Agilefs.Ingest
import Agilefs.StoreSteps

/-!
# The 4 GB limit and the slot numbers

The limit on a chunk file is enforced by the search alone : a file without free chunks is
chosen only below the limit, and then it grows by one chunk. `Numbered` is what runs of puts
and deletes keep, whatever their calls do : sizes of at most 4 GB, entries below `2 ^ 20`
on the free lists, and records of slots inside the limit.

`limits_hold` says that in every state a run reaches the conversions of a slot number
between `long`, `unsigned` and `int` are exact, a popped slot is never taken for an empty
list, and every block is written inside the limit. A run ends early only where the search
finds no file, where a push has no entry left, or at a page whose `malloc` had failed.
-/

namespace Agilefs

open CInt Posix Function

variable {K P : Type*}

namespace ChunkFileInfo

/-- A place for a chunk in one of the files, below the limit. -/
structure Placed (cfi : ChunkFileInfo) (l : Location) : Prop where
  index_nonneg : 0 ≤ l.1
  index_lt : l.1 < cfi.total
  aligned : l.2 % fspSize = 0
  nonneg : 0 ≤ l.2
  le_max : l.2 + fspSize ≤ maxChunkFileSize

theorem Placed.of_total {cfi cfi' : ChunkFileInfo} {l : Location} (h : cfi.Placed l)
    (htot : cfi'.total = cfi.total) : cfi'.Placed l :=
  ⟨h.index_nonneg, htot ▸ h.index_lt, h.aligned, h.nonneg, h.le_max⟩

end ChunkFileInfo

namespace Store

/-- What a run starts from and keeps. -/
structure Numbered (s : Store K P) : Prop where
  total_pos : 1 ≤ s.cfi.total
  sized : s.cfi.Sized
  lists : ∀ i < s.cfi.files, (s.cfi.fcls i).Shaped
  entries : ∀ i < s.cfi.files, ∀ e, (s.cfi.fcls i).Has e → e.toNat < 2 ^ 20
  records : ∀ k bd, s.db k = some bd → s.cfi.Placed bd.location

/-- The slot numbers pass through `long`, `unsigned` and `int` unchanged : an entry popped, which
gives the offset the block is written at, and the offset of the record `del_chunk` has, once
pushed. -/
structure Converts (s : Store K P) : Prop where
  pop : ∀ i < s.cfi.files, ∀ fcl r, (s.cfi.fcls i).getFirstFreeChunk = some (fcl, r) →
    (r = -1 ↔ (s.cfi.fcls i).current = -1) ∧
      (r ≠ -1 → 0 ≤ r ∧ r < 2 ^ 20 ∧
        (s.cfi.fcls i).freeList (s.cfi.fcls i).current = some (UInt32.ofInt r) ∧
        s.cfi.takeSlot i = some (s.cfi.setFcl i fcl, r <<< (12 : ℕ)) ∧
        int32 (uint32 ((r <<< (12 : ℕ)) >>> (12 : ℕ))) = r)
  push : ∀ rc key slot, slot = int32 (uint32 ((dbGet rc s.db key).2.offset >>> (12 : ℕ))) →
    0 ≤ slot ∧ slot < 2 ^ 20 ∧ int32 (UInt32.ofInt slot).toNat = slot ∧
      slot <<< (12 : ℕ) = (dbGet rc s.db key).2.offset
  file : ∀ rc key, 0 ≤ (dbGet rc s.db key).2.fdIndex ∧
    (dbGet rc s.db key).2.fdIndex < s.cfi.total

/-- What a step does to the sizes, and where it writes. -/
structure StepFits [DecidableEq K] (s : Store K P) (op : StoreOp K) (s' : Store K P) : Prop where
  grows : ∀ i, s.cfi.curSize i ≤ s'.cfi.curSize i
  writes : s'.os = s.os ∨ ∃ key block o, ∃ (i : ℕ) (off : ℤ), op = .put key block o ∧
    s.cfi.getProperChunkFile = i ∧ s.cfi.takeSlot i = some (s'.cfi, off) ∧
    s.cfi.Placed (i, off) ∧ s'.os = (s.writeSlot o block.val fspSize i off).1

/-- The search finds no file for a put, or a push finds a list of `2 ^ 20` entries. -/
def Stops (s : Store K P) : StoreOp K → Prop
  | .put key _ o => ¬Finds o.dbGet s.db key ∧ s.cfi.getProperChunkFile = -1
  | .del key o => ¬Finds o.dbGet s.db key ∧ 2 ^ 20 ≤ (s.cfi.fcls 0).stack.length

/-- The `malloc` in a delete succeeds. -/
def Mallocs : StoreOp K → Prop
  | .put _ _ _ => True
  | .del _ o => o.malloc.isSome

/-! ## Conversions -/

theorem int32_entry {e : UInt32} (h : e.toNat < 2 ^ 20) : int32 (e.toNat : ℤ) = e.toNat :=
  int32_of_range (by omega) (by omega)

theorem ofInt_eq_ofNat {n : ℕ} (h : n < 2 ^ 20) : UInt32.ofInt n = UInt32.ofNat n := by
  unfold UInt32.ofInt
  congr 1
  omega

theorem ofInt_toNat_of_lt {n : ℕ} (h : n < 2 ^ 20) : (UInt32.ofInt n).toNat = n := by
  rw [ofInt_eq_ofNat h, UInt32.toNat_ofNat']
  omega

/-- The slot number of an offset below the limit. -/
theorem slot_of_offset {off : ℤ} (h₀ : 0 ≤ off) (hal : off % 4096 = 0) (hmax : off < 2 ^ 32) :
    int32 (uint32 (off >>> (12 : ℕ))) = off / 4096 := by
  have hshift : off >>> (12 : ℕ) = off / 4096 := by
    rw [Int.shiftRight_eq_div_pow]
    rfl
  rw [hshift, uint32, Int.emod_eq_of_lt (by omega) (by omega)]
  exact int32_of_range (by omega) (by omega)

/-- The record `db_get` yields is one of the database or zero. -/
theorem Numbered.placed {s : Store K P} (h : s.Numbered) (rc : ℤ) (key : K) :
    s.cfi.Placed (dbGet rc s.db key).2.location := by
  by_cases hf : Finds rc s.db key
  · obtain ⟨bd, hbd⟩ := Option.isSome_iff_exists.1 hf.2
    rw [hf.1, dbGet_some hbd]
    exact h.records key bd hbd
  · rw [(dbGet_of_not_finds hf).2]
    have := h.total_pos
    exact ⟨le_rfl, by simp [BlockData.location, BlockData.zero]; omega, rfl, le_rfl, by decide⟩

theorem Numbered.converts {s : Store K P} (h : s.Numbered) : s.Converts := by
  refine ⟨fun i hi fcl r hget => ?_, fun rc key slot hslot => ?_, fun rc key => ?_⟩
  · rcases FreeChunkList.getFirstFreeChunk_cases hget with ⟨hcur, -, rfl⟩ | ⟨hcur, e, he, -, hr⟩
    · exact ⟨by simp [hcur], fun h => (h rfl).elim⟩
    · have hlt := h.entries i hi e ((h.lists i hi).pop hcur he).2.1
      rw [int32_entry hlt] at hr
      refine ⟨⟨fun h => by omega, fun h => (hcur h).elim⟩, fun hne => ⟨by omega, by omega, ?_,
        by simp [ChunkFileInfo.takeSlot, hget, hne], ?_⟩⟩
      · rw [he, hr, Option.some.injEq, ofInt_eq_ofNat hlt]
        exact (UInt32.ofNat_toNat (x := e)).symm
      · -- the slot of the offset is the entry that was popped
        rw [Int.shiftLeft_eq, slot_of_offset (by omega) (by omega) (by omega)]
        omega
  · obtain ⟨-, -, hal, hpos, hmax⟩ := h.placed rc key
    simp only [BlockData.location, fspSize, maxChunkFileSize] at hal hpos hmax
    rw [slot_of_offset hpos (by omega) (by omega)] at hslot
    have hcast : slot = ((slot.toNat : ℕ) : ℤ) := by omega
    refine ⟨by omega, by omega, ?_, by rw [Int.shiftLeft_eq]; omega⟩
    rw [hcast, ofInt_toNat_of_lt (by omega)]
    exact int32_of_range (by omega) (by omega)
  · exact ⟨(h.placed rc key).index_nonneg, (h.placed rc key).index_lt⟩

/-! ## Steps -/

section Steps

variable {s s' : Store K P}

/-- A slot taken in the file the search finds is below the limit, and so is the file
afterwards. -/
theorem Numbered.take (h : s.Numbered) {i : ℕ} (hi : i < s.cfi.files)
    (hcap : s.cfi.capcity i < 0xffffffff) {cfi : ChunkFileInfo} {off : ℤ}
    (ht : s.cfi.takeSlot i = some (cfi, off)) :
    s.cfi.Placed (i, off) ∧ cfi.Sized ∧ (∀ j, s.cfi.curSize j ≤ cfi.curSize j) ∧
      (∀ j < cfi.files, (cfi.fcls j).Shaped) ∧
      ∀ j < cfi.files, ∀ e, (cfi.fcls j).Has e → e.toNat < 2 ^ 20 := by
  have htot : (i : ℤ) < s.cfi.total := by
    unfold ChunkFileInfo.files at hi
    omega
  obtain ⟨hmod, hle⟩ := h.sized i hi
  obtain ⟨fcl, r, hget, hcases⟩ := ChunkFileInfo.takeSlot_some ht
  obtain ⟨hpop, hslot⟩ := h.converts.pop i hi fcl r hget
  rcases FreeChunkList.getFirstFreeChunk_cases hget with ⟨hcur, rfl, -⟩ | ⟨hcur, e, he, rfl, -⟩
  · obtain ⟨-, rfl, rfl⟩ | ⟨hr, -⟩ := hcases
    · simp only [ChunkFileInfo.capcity, hcur, if_true] at hcap
      rw [ChunkFileInfo.setFcl_self]
      refine ⟨⟨by simp, htot, by simp only [fspSize]; omega, by simp,
        by simp only [fspSize, maxChunkFileSize]; omega⟩, fun j hj => ?_, fun j => ?_, h.lists,
        h.entries⟩
      · rw [ChunkFileInfo.grow_curSize]
        split_ifs
        · omega
        · exact h.sized j hj
      · rw [ChunkFileInfo.grow_curSize]
        split_ifs with hji
        · rw [hji]
          omega
        · exact le_rfl
    · exact (hr (hpop.2 hcur)).elim
  · obtain ⟨hr, -⟩ | ⟨hr, rfl, rfl⟩ := hcases
    · exact (hcur (hpop.1 hr)).elim
    · obtain ⟨h₀, hlt, -⟩ := hslot hr
      obtain ⟨hshaped, -, hsub, -⟩ := (h.lists i hi).pop hcur he
      rw [Int.shiftLeft_eq]
      refine ⟨⟨by simp, htot, by simp only [fspSize]; omega, by simp only; omega,
        by simp only [fspSize, maxChunkFileSize]; omega⟩, h.sized, fun j => le_rfl,
        fun j hj => ?_, fun j hj x hx => ?_⟩
      · rw [ChunkFileInfo.setFcl_fcls]
        split_ifs
        · exact hshaped
        · exact h.lists j hj
      · rw [ChunkFileInfo.setFcl_fcls] at hx
        split_ifs at hx
        · exact h.entries i hi x (hsub x hx)
        · exact h.entries j hj x hx

/-- The record of a slot inside the limit is added. -/
theorem placed_update [DecidableEq K] (h : s.Numbered) (htot : s'.cfi.total = s.cfi.total)
    {key : K} {bd : BlockData} (hdb : s'.db = update s.db key (some bd))
    (hbd : s.cfi.Placed bd.location) :
    ∀ k bd, s'.db k = some bd → s'.cfi.Placed bd.location := by
  intro k bd' hk
  rw [hdb] at hk
  have hplaced : s.cfi.Placed bd'.location := by
    by_cases hkey : k = key
    · subst hkey
      obtain rfl : bd = bd' := by simpa using hk
      exact hbd
    · exact h.records k bd' (by simpa [hkey] using hk)
  exact hplaced.of_total htot

/-- One step keeps the numbers in range. -/
theorem Numbered.step [DecidableEq K] {whd : WriteHashDb K} (h : s.Numbered) {op : StoreOp K}
    (hs : s.step whd op = some s') : s'.Numbered ∧ s.StepFits op s' := by
  cases op with
  | put key block o =>
    obtain ⟨⟨s₁, ret⟩, hput, rfl⟩ := Option.map_eq_some_iff.1 hs
    by_cases hf : Finds o.dbGet s.db key
    · obtain ⟨bd, hbd, ⟨-, -, rfl⟩ | ⟨-, -, rfl⟩⟩ := putNewChunk_found whd hf hput
      · exact ⟨⟨h.total_pos, h.sized, h.lists, h.entries,
          placed_update h rfl rfl (h.records key bd hbd)⟩, fun i => le_rfl, Or.inl rfl⟩
      · exact ⟨h, fun i => le_rfl, Or.inl rfl⟩
    · obtain ⟨i, hi, hpi, hcap, off, ht, hos, hres⟩ := putNewChunk_not_found whd hf hput
      obtain ⟨htot, -⟩ := ChunkFileInfo.takeSlot_total ht
      obtain ⟨hplaced, hsized, hgrows, hlists, hentries⟩ := h.take hi hcap ht
      refine ⟨⟨by rw [htot]; exact h.total_pos, hsized, hlists, hentries, ?_⟩, hgrows,
        Or.inr ⟨key, block, o, i, off, rfl, hpi, ht, hplaced, hos⟩⟩
      rcases hres with ⟨-, -, -, hdb⟩ | ⟨-, -, hdb⟩
      · exact placed_update h htot hdb hplaced
      · exact fun k bd hk => (h.records k bd (hdb ▸ hk)).of_total htot
  | del key o =>
    obtain ⟨⟨s₁, ret⟩, hdel, rfl⟩ := Option.map_eq_some_iff.1 hs
    by_cases hf : Finds o.dbGet s.db key
    · rw [delChunk_found hf hdel]
      exact ⟨h, fun i => le_rfl, Or.inl rfl⟩
    · obtain ⟨fcl, r, hadd, rfl⟩ := delChunk_not_found hf hdel
      have h0 : 0 < s.cfi.files := by
        have := h.total_pos
        unfold ChunkFileInfo.files
        omega
      obtain ⟨hshaped, -, hnew⟩ := (h.lists 0 h0).push hadd
      refine ⟨⟨h.total_pos, h.sized, fun j hj => ?_, fun j hj e he => ?_, fun k bd hk => ?_⟩,
        fun i => le_rfl, Or.inl rfl⟩
      · simp only [ChunkFileInfo.setFcl_fcls]
        split_ifs
        · exact hshaped
        · exact h.lists j hj
      · simp only [ChunkFileInfo.setFcl_fcls] at he
        split_ifs at he
        · rcases hnew e he with he | rfl
          · exact h.entries 0 h0 e he
          · decide
        · exact h.entries j hj e he
      · simp only at hk
        rcases dbDel_eq o.dbDel s.db key with hdb | ⟨-, hdb⟩
        · exact (h.records k bd (hdb ▸ hk)).of_total rfl
        · rw [hdb] at hk
          by_cases hkey : k = key
          · simp [hkey] at hk
          · exact (h.records k bd (by simpa [hkey] using hk)).of_total rfl

end Steps

/-! ## Where a run stops -/

section Stops

variable [DecidableEq K] {s s' : Store K P}

/-- The pages of every list are allocated. -/
def Paged (s : Store K P) : Prop :=
  ∀ i < s.cfi.files, (s.cfi.fcls i).Ok

theorem Ok.getFirstFreeChunk {f : FreeChunkList} (h : f.Ok) :
    ∃ f' r, f.getFirstFreeChunk = some (f', r) ∧ f'.Ok := by
  cases hs : f.stack with
  | nil => exact ⟨f, -1, FreeChunkList.getFirstFreeChunk_nil h hs, h⟩
  | cons e es =>
    obtain ⟨f', hget, hok, -⟩ := FreeChunkList.getFirstFreeChunk_cons h hs
    exact ⟨f', _, hget, hok⟩

/-- With all pages allocated, a step stops only where it is out of files or of entries, and
leaves all pages allocated otherwise. -/
theorem Paged.step (whd : WriteHashDb K) (h : s.Paged) (hpos : 0 < s.cfi.files) {op : StoreOp K}
    (hop : Mallocs op) :
    (∃ s', s.step whd op = some s' ∧ s'.Paged) ∨ s.Stops op := by
  cases op with
  | put key block o =>
    by_cases hf : Finds o.dbGet s.db key
    · obtain ⟨bd, hbd⟩ := Option.isSome_iff_exists.1 hf.2
      refine Or.inl ?_
      rw [Store.step, putNewChunk_present whd hf.1 hbd]
      split_ifs
      · exact ⟨_, rfl, h⟩
      · exact ⟨_, rfl, h⟩
    · by_cases hg : s.cfi.getProperChunkFile = -1
      · exact Or.inr ⟨hf, hg⟩
      · obtain ⟨i, hi, hpi, -⟩ := ChunkFileInfo.exists_file_of_ne hg
        obtain ⟨fcl, r, hget, hok⟩ := Ok.getFirstFreeChunk (h i hi)
        have hpaged : ∀ j < s.cfi.files, ((s.cfi.setFcl i fcl).fcls j).Ok := fun j hj => by
          rw [ChunkFileInfo.setFcl_fcls]
          split_ifs
          · exact hok
          · exact h j hj
        obtain ⟨cfi, off, ht⟩ : ∃ cfi off, s.cfi.takeSlot i = some (cfi, off) :=
          ⟨_, _, by rw [ChunkFileInfo.takeSlot, hget]; rfl⟩
        have hcfi : cfi.fcls = (s.cfi.setFcl i fcl).fcls := by
          obtain ⟨fcl', r', hget', ⟨-, rfl, -⟩ | ⟨-, rfl, -⟩⟩ := ChunkFileInfo.takeSlot_some ht
          · rw [hget, Option.some.injEq, Prod.mk.injEq] at hget'
            rw [hget'.1]
            rfl
          · rw [hget, Option.some.injEq, Prod.mk.injEq] at hget'
            rw [hget'.1]
        have hne := (dbGet_of_not_finds hf).1
        refine Or.inl ?_
        simp only [Store.step, putNewChunk, if_pos hne, blockWrite_eq hpi ht key block.property]
        have hend : ∀ db os, Paged (⟨cfi, db, os⟩ : Store K P) := fun db os j hj => by
          rw [hcfi]
          refine hpaged j ?_
          simpa [ChunkFileInfo.files, (ChunkFileInfo.takeSlot_total ht).1] using hj
        split_ifs
        · exact ⟨_, rfl, hend _ _⟩
        · exact ⟨_, rfl, hend _ _⟩
        · exact ⟨_, rfl, hend _ _⟩
  | del key o =>
    by_cases hf : Finds o.dbGet s.db key
    · obtain ⟨bd, hbd⟩ := Option.isSome_iff_exists.1 hf.2
      exact Or.inl ⟨s, by rw [Store.step, delChunk_present hf.1 hbd]; rfl, h⟩
    · rcases Nat.lt_or_ge (s.cfi.fcls 0).stack.length (2 ^ 20) with hlt | hge
      · obtain ⟨p, hp⟩ := Option.isSome_iff_exists.1 hop
        obtain ⟨fcl, hadd, hok, -⟩ := FreeChunkList.addFreeChunk_ok (h 0 hpos) hlt 0 p
        obtain ⟨hne, hbd⟩ := dbGet_of_not_finds hf
        have hzero : int32 (uint32 (BlockData.zero.offset >>> (12 : ℕ))) = 0 := rfl
        refine Or.inl ⟨⟨s.cfi.setFcl 0 fcl, (dbDel o.dbDel s.db key).1, s.os⟩, ?_, fun j hj => ?_⟩
        · simp only [Store.step, delChunk, if_pos hne, hbd]
          rw [if_neg (by decide), hzero, hp]
          change (Option.map _ (Option.map _ ((s.cfi.fcls 0).addFreeChunk 0 (some p)))) = _
          rw [hadd]
          rfl
        · simp only [ChunkFileInfo.setFcl_fcls]
          split_ifs
          · exact hok
          · exact h j hj
      · exact Or.inr ⟨hf, hge⟩

/-- In every state a run reaches the sizes have grown to at most 4 GB, the slot numbers pass all
conversions, and a step writes inside the limit. If every `malloc` so far has succeeded, a
step is undefined only where the search finds no file or a list is full. -/
theorem limits_hold (whd : WriteHashDb K) (h : s.Numbered) {ops : List (StoreOp K)}
    (hrun : Runs.exec (step whd) s ops = some s') :
    (∀ i < s'.cfi.files, s'.cfi.curSize i % 4096 = 0 ∧ s'.cfi.curSize i ≤ 2 ^ 32) ∧
      (∀ i, s.cfi.curSize i ≤ s'.cfi.curSize i) ∧ s'.Numbered ∧ s'.Converts ∧
      (∀ op s'', s'.step whd op = some s'' → s'.StepFits op s'') ∧
      (s.Paged → (∀ op ∈ ops, Mallocs op) → ∀ op, Mallocs op → s'.step whd op = none →
        s'.Stops op) := by
  obtain ⟨hs', hgrows⟩ : s'.Numbered ∧ ∀ i, s.cfi.curSize i ≤ s'.cfi.curSize i :=
    Runs.exec_invariant (I := fun t => t.Numbered ∧ ∀ i, s.cfi.curSize i ≤ t.cfi.curSize i)
      (fun t op t' ht hstep =>
        ⟨(ht.1.step hstep).1, fun i => (ht.2 i).trans ((ht.1.step hstep).2.grows i)⟩)
      ⟨h, fun i => le_rfl⟩ hrun
  refine ⟨hs'.sized, hgrows, hs', hs'.converts, fun op s'' hs'' => (hs'.step hs'').2,
    fun hp hm op hop hnone => ?_⟩
  have hpos : ∀ t : Store K P, t.Numbered → 0 < t.cfi.files := fun t ht => by
    have := ht.total_pos
    unfold ChunkFileInfo.files
    omega
  have hp' : s'.Numbered ∧ s'.Paged :=
    Runs.Each.exec_invariant (I := fun t : Store K P => t.Numbered ∧ t.Paged)
      (C := fun _ op => Mallocs op)
      (fun t op t' ht hop hstep => by
        refine ⟨(ht.1.step hstep).1, ?_⟩
        rcases ht.2.step whd (hpos t ht.1) hop with ⟨t'', ht'', hp''⟩ | hstops
        · obtain rfl : t' = t'' := by simpa [hstep] using ht''
          exact hp''
        · cases op with
          | put key block o =>
            obtain ⟨⟨s₁, ret⟩, hput, -⟩ := Option.map_eq_some_iff.1 hstep
            obtain ⟨i, -, hpi, -⟩ := putNewChunk_not_found whd hstops.1 hput
            have := hstops.2
            omega
          | del key o =>
            obtain ⟨⟨s₁, ret⟩, hdel, -⟩ := Option.map_eq_some_iff.1 hstep
            obtain ⟨p, hp⟩ := Option.isSome_iff_exists.1 hop
            obtain ⟨fcl, r, hadd, -⟩ := delChunk_not_found hstops.1 hdel
            rw [hp, FreeChunkList.addFreeChunk_full (ht.2 0 (hpos t ht.1)) hstops.2] at hadd
            cases hadd)
      (Runs.Each.of_forall_mem hm) ⟨h, hp⟩ hrun
  rcases hp'.2.step whd (hpos s' hp'.1) hop with ⟨s'', hs'', -⟩ | hstops
  · simp [hnone] at hs''
  · exact hstops

end Stops

theorem numbered_empty {n : ℕ} (hn : 1 ≤ n) : (empty n : Store K P).Numbered :=
  ⟨by simpa [empty] using hn, fun _ _ => ⟨rfl, by simp [empty]⟩,
    fun _ _ => FreeChunkList.shaped_empty,
    fun _ _ e he => (FreeChunkList.not_has_of_current rfl e he).elim, fun _ _ hk => by cases hk⟩

/-- A failed put, a delete of an absent key, and a put of another. -/
theorem limits_hold_run :
    ∃ s', Runs.exec (step (.insert ℕ)) (empty 1 : Store ℕ ℕ)
        [.put 7 (fillBlock 1) { pwrite := fun _ => none }, .del 8 {}, .put 9 (fillBlock 2) {}] =
          some s' ∧ s'.Numbered ∧ s'.Converts := by
  have hrun : (Runs.exec (step (.insert ℕ)) (empty 1 : Store ℕ ℕ)
      [.put 7 (fillBlock 1) { pwrite := fun _ => none }, .del 8 {},
        .put 9 (fillBlock 2) {}]).isSome := by
    decide +kernel
  obtain ⟨s', hs'⟩ := Option.isSome_iff_exists.1 hrun
  obtain ⟨-, -, hn, hc, -⟩ := limits_hold (.insert ℕ) (numbered_empty le_rfl) hs'
  exact ⟨s', hs', hn, hc⟩

end Store

end Agilefs
