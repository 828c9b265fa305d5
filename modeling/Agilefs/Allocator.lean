import Agilefs.ChunkStore

/-!
# The allocation invariant

A location is a file index and an offset. Holders of any kind (the keys of the database,
calls in flight) each hold at most one location, given by a partial map `loc`. `Sound cfi
loc` says that the slots below `curSize` are shared out : distinct holders hold distinct
locations, no location held is on a free list, and none is on a free list twice.

`Sound.takeSlot` is the rule for allocation. The slot it takes is `Vacant`, and a vacant
slot may be handed to a holder (`Sound.hold`) or pushed onto its free list (`Sound.push`).
Both directions of `Sound.push_iff` matter : pushing any other location breaks the
invariant.
-/

namespace Agilefs

open CInt Function

/-- A file index and an offset. -/
abbrev Location := ℤ × ℤ

/-- Where the chunk of a record is. -/
def BlockData.location (bd : BlockData) : Location := (bd.fdIndex, bd.offset)

/-- The offset `block_write` uses for a free-list entry. -/
def slotOffset (e : UInt32) : ℤ := int32 e.toNat * 4096

/-- Where the chunk of each key is. -/
def Db.loc {K : Type*} (db : Db K) : K → Option Location :=
  fun k => (db k).map BlockData.location

theorem Db.loc_update {K : Type*} [DecidableEq K] (db : Db K) (k : K) (bd : BlockData) :
    Db.loc (update db k (some bd)) = update db.loc k (some bd.location) := by
  funext k'
  by_cases hk : k' = k
  · simp [Db.loc, hk]
  · simp [Db.loc, hk]

theorem Db.loc_eq_some {K : Type*} {db : Db K} {k : K} {l : Location} :
    db.loc k = some l ↔ ∃ bd, db k = some bd ∧ bd.location = l := by
  simp [Db.loc]

namespace ChunkFileInfo

/-- The offsets on the free list of file `i`, the next to be used first. -/
def freeOffsets (cfi : ChunkFileInfo) (i : ℕ) : List ℤ :=
  (cfi.fcls i).stack.map slotOffset

/-- A location that is a multiple of `FSP_SIZE` below the size of its file. -/
structure Slot (cfi : ChunkFileInfo) (l : Location) : Prop where
  index_nonneg : 0 ≤ l.1
  index_lt : l.1 < cfi.total
  aligned : l.2 % 4096 = 0
  nonneg : 0 ≤ l.2
  lt_size : l.2 < cfi.curSize l.1.toNat

/-- The allocation invariant. -/
structure Sound {ι : Type*} (cfi : ChunkFileInfo) (loc : ι → Option Location) : Prop where
  lists : ∀ i < cfi.files, (cfi.fcls i).Ok
  held : ∀ x l, loc x = some l → cfi.Slot l
  inj : ∀ x y l, loc x = some l → loc y = some l → x = y
  free : ∀ i < cfi.files, ∀ o ∈ cfi.freeOffsets i, cfi.Slot ((i : ℤ), o)
  nodup : ∀ i < cfi.files, (cfi.freeOffsets i).Nodup
  disjoint : ∀ x l, loc x = some l → l.2 ∉ cfi.freeOffsets l.1.toNat

/-- A slot nobody holds, on no free list. -/
structure Vacant {ι : Type*} (cfi : ChunkFileInfo) (loc : ι → Option Location)
    (l : Location) : Prop where
  slot : cfi.Slot l
  not_held : ∀ x, loc x ≠ some l
  not_free : l.2 ∉ cfi.freeOffsets l.1.toNat

/-- The same files, at least as long. -/
structure Extends (cfi cfi' : ChunkFileInfo) : Prop where
  total : cfi'.total = cfi.total
  fds : cfi'.fds = cfi.fds
  curSize : ∀ i, cfi.curSize i ≤ cfi'.curSize i

variable {ι : Type*} {cfi cfi' : ChunkFileInfo} {loc : ι → Option Location} {i : ℕ}

theorem lt_files_iff {z : ℤ} (h : 0 ≤ z) : z.toNat < cfi.files ↔ z < cfi.total := by
  unfold files
  omega

theorem Slot.index_lt_files {l : Location} (h : cfi.Slot l) : l.1.toNat < cfi.files :=
  (lt_files_iff h.index_nonneg).2 h.index_lt

theorem Slot.of_extends {l : Location} (h : cfi.Slot l) (he : Extends cfi cfi') :
    cfi'.Slot l := by
  refine ⟨h.index_nonneg, he.total ▸ h.index_lt, h.aligned, h.nonneg, ?_⟩
  have := he.curSize l.1.toNat
  have := h.lt_size
  omega

theorem Extends.files_eq (he : Extends cfi cfi') : cfi'.files = cfi.files := by
  simp [files, he.total]

/-! ## Taking a slot -/

/-- What `get_first_free_chunk` does on a list in order : it returns `-1` if the list is
empty, and pops it otherwise. -/
theorem pop_cases (hok : (cfi.fcls i).Ok) (hfree : ∀ o ∈ cfi.freeOffsets i, 0 ≤ o) :
    (cfi.freeOffsets i = [] ∧ (cfi.fcls i).getFirstFreeChunk = some (cfi.fcls i, -1)) ∨
    ∃ fcl ret os, (cfi.fcls i).getFirstFreeChunk = some (fcl, ret) ∧ ret ≠ -1 ∧
      FreeChunkList.Ok fcl ∧ cfi.freeOffsets i = ret <<< (12 : ℕ) :: os ∧
      fcl.stack.map slotOffset = os := by
  cases hs : (cfi.fcls i).stack with
  | nil =>
    exact Or.inl ⟨by simp [freeOffsets, hs], FreeChunkList.getFirstFreeChunk_nil hok hs⟩
  | cons e es =>
    obtain ⟨fcl, hget, hok', hst⟩ := FreeChunkList.getFirstFreeChunk_cons hok hs
    have hpos : 0 ≤ slotOffset e := hfree _ (by simp [freeOffsets, hs])
    have hne : int32 (e.toNat : ℤ) ≠ -1 := by
      unfold slotOffset at hpos
      omega
    exact Or.inr ⟨fcl, _, es.map slotOffset, hget, hne, hok',
      by simp [freeOffsets, hs, slotOffset, Int.shiftLeft_eq], by rw [hst]⟩

/-- What `takeSlot` does on a list in order : it extends the file if the list is empty,
and pops the list otherwise. -/
theorem takeSlot_cases (hok : (cfi.fcls i).Ok) (hfree : ∀ o ∈ cfi.freeOffsets i, 0 ≤ o) :
    (cfi.freeOffsets i = [] ∧
      cfi.takeSlot i =
        some (cfi.grow i,
          (cfi.curSize i : ℤ))) ∨
    ∃ fcl o os, cfi.freeOffsets i = o :: os ∧ FreeChunkList.Ok fcl ∧
      fcl.stack.map slotOffset = os ∧
      cfi.takeSlot i = some (cfi.setFcl i fcl, o) := by
  rcases pop_cases hok hfree with ⟨hnil, hget⟩ | ⟨fcl, ret, os, hget, hne, hok', hcons, hst⟩
  · exact Or.inl ⟨hnil, by simp [takeSlot, hget]⟩
  · exact Or.inr ⟨fcl, _, os, hcons, hok', hst, by simp [takeSlot, hget, hne]⟩

theorem Sound.freeOffsets_nonneg (h : cfi.Sound loc) (hi : i < cfi.files) :
    ∀ o ∈ cfi.freeOffsets i, 0 ≤ o :=
  fun o ho => (h.free i hi o ho).nonneg

/-- Freeing nothing and holding nothing new keeps the invariant in longer files. -/
theorem Sound.of_extends (h : cfi.Sound loc) (he : Extends cfi cfi')
    (hfcl : cfi'.fcls = cfi.fcls) : cfi'.Sound loc := by
  have hfree : cfi'.freeOffsets = cfi.freeOffsets := by
    funext i
    simp [freeOffsets, hfcl]
  refine ⟨?_, fun x l hx => (h.held x l hx).of_extends he, h.inj, ?_, ?_, ?_⟩
  · rw [he.files_eq, hfcl]
    exact h.lists
  · rw [he.files_eq, hfree]
    exact fun i hi o ho => (h.free i hi o ho).of_extends he
  · rw [he.files_eq, hfree]
    exact h.nodup
  · rw [hfree]
    exact h.disjoint

theorem extends_grow (cfi : ChunkFileInfo) (i : ℕ) : Extends cfi (cfi.grow i) := by
  refine ⟨rfl, rfl, fun j => ?_⟩
  rw [grow_curSize]
  split_ifs with hj
  · rw [hj]
    omega
  · exact le_rfl

theorem extends_setFcl (cfi : ChunkFileInfo) (i : ℕ) (fcl : FreeChunkList) :
    Extends cfi (cfi.setFcl i fcl) :=
  ⟨rfl, rfl, fun _ => le_rfl⟩

theorem freeOffsets_setFcl (cfi : ChunkFileInfo) (i j : ℕ) (fcl : FreeChunkList) :
    freeOffsets (cfi.setFcl i fcl) j =
      if j = i then fcl.stack.map slotOffset else cfi.freeOffsets j := by
  by_cases hj : j = i
  · simp [freeOffsets, hj]
  · simp [freeOffsets, hj]

/-- The free list of file `i` replaced by one with fewer offsets. -/
theorem Sound.shrink (h : cfi.Sound loc) {fcl : FreeChunkList} (hok : fcl.Ok)
    (hsub : List.Sublist (fcl.stack.map slotOffset) (cfi.freeOffsets i)) :
    Sound (cfi.setFcl i fcl) loc := by
  have hmem : ∀ j, ∀ o ∈ freeOffsets (cfi.setFcl i fcl) j,
      o ∈ cfi.freeOffsets j := by
    intro j o ho
    rw [freeOffsets_setFcl] at ho
    split_ifs at ho with hj
    · exact hj ▸ hsub.subset ho
    · exact ho
  have hext := extends_setFcl cfi i fcl
  refine ⟨fun j hj => ?_, fun x l hx => (h.held x l hx).of_extends hext, h.inj,
    fun j hj o ho => (h.free j hj o (hmem j o ho)).of_extends hext,
    fun j hj => ?_, fun x l hx ho => h.disjoint x l hx (hmem _ _ ho)⟩
  · by_cases hji : j = i
    · simpa [hji] using hok
    · simpa [hji] using h.lists j hj
  · rw [freeOffsets_setFcl]
    split_ifs with hji
    · subst hji
      exact hsub.nodup (h.nodup j hj)
    · exact h.nodup j hj

/-- A file whose size is a multiple of `FSP_SIZE` grows by a vacant slot. -/
theorem Sound.grow (h : cfi.Sound loc) (hi : i < cfi.files) (hal : cfi.curSize i % 4096 = 0) :
    (cfi.grow i).Sound loc ∧ (cfi.grow i).Vacant loc ((i : ℤ), cfi.curSize i) := by
  have htot : (i : ℤ) < cfi.total := by
    unfold files at hi
    omega
  refine ⟨h.of_extends (extends_grow cfi i) rfl,
    ⟨⟨by simp, htot, by simp; omega, by simp, by simp⟩, ?_, ?_⟩⟩
  · -- every slot so far is below the old end
    intro x hx
    have := (h.held x _ hx).lt_size
    simp at this
  · intro ho
    have := (h.free i hi _ ho).lt_size
    simp at this

/-- A slot popped off its free list is vacant. -/
theorem Sound.pop (h : cfi.Sound loc) (hi : i < cfi.files) {fcl : FreeChunkList} {o : ℤ}
    {os : List ℤ} (hok : fcl.Ok) (hcons : cfi.freeOffsets i = o :: os)
    (hst : fcl.stack.map slotOffset = os) :
    (cfi.setFcl i fcl).Sound loc ∧ (cfi.setFcl i fcl).Vacant loc ((i : ℤ), o) := by
  have hext := extends_setFcl cfi i fcl
  have hnd := h.nodup i hi
  have hslot := h.free i hi o (by simp [hcons])
  rw [hcons, List.nodup_cons, ← hst] at hnd
  refine ⟨h.shrink hok (by simp [hcons, hst]), hslot.of_extends hext, fun x hx => ?_, ?_⟩
  · exact h.disjoint x _ hx (by simp [hcons])
  · simpa [freeOffsets_setFcl] using hnd.1

/-- Allocation keeps the invariant and yields a vacant slot, provided a file that has to
grow has a size that is a multiple of `FSP_SIZE`. -/
theorem Sound.takeSlot (h : cfi.Sound loc) (hi : i < cfi.files)
    (hal : cfi.freeOffsets i = [] → cfi.curSize i % 4096 = 0) :
    ∃ cfi' off, cfi.takeSlot i = some (cfi', off) ∧ cfi'.Sound loc ∧
      cfi'.Vacant loc ((i : ℤ), off) ∧ Extends cfi cfi' := by
  rcases takeSlot_cases (h.lists i hi) (h.freeOffsets_nonneg hi) with ⟨hnil, ht⟩ |
    ⟨fcl, o, os, hcons, hok, hst, ht⟩
  · obtain ⟨hs, hv⟩ := h.grow hi (hal hnil)
    exact ⟨_, _, ht, hs, hv, extends_grow cfi i⟩
  · obtain ⟨hs, hv⟩ := h.pop hi hok hcons hst
    exact ⟨_, _, ht, hs, hv, extends_setFcl cfi i fcl⟩

/-- A slot at the end of a file whose size is not a multiple of `FSP_SIZE` is misplaced. -/
theorem Sound.takeSlot_unaligned (h : cfi.Sound loc) (hi : i < cfi.files)
    (hnil : cfi.freeOffsets i = []) (hal : cfi.curSize i % 4096 ≠ 0) :
    ∃ cfi' off, cfi.takeSlot i = some (cfi', off) ∧ 0 ≤ off ∧ off % 4096 ≠ 0 := by
  rcases takeSlot_cases (h.lists i hi) (h.freeOffsets_nonneg hi) with ⟨-, ht⟩ |
    ⟨_, _, _, hcons, -⟩
  · exact ⟨_, _, ht, by omega, by omega⟩
  · simp [hnil] at hcons

/-! ## Holding and freeing a slot -/

/-- Other holders, who hold some of the same locations. -/
theorem Sound.of_held {κ : Type*} {loc' : κ → Option Location} (h : cfi.Sound loc)
    (hheld : ∀ y l, loc' y = some l → ∃ x, loc x = some l)
    (hinj : ∀ y z l, loc' y = some l → loc' z = some l → y = z) : cfi.Sound loc' := by
  refine ⟨h.lists, fun y l hy => ?_, hinj, h.free, h.nodup, fun y l hy => ?_⟩
  · obtain ⟨x, hx⟩ := hheld y l hy
    exact h.held x l hx
  · obtain ⟨x, hx⟩ := hheld y l hy
    exact h.disjoint x l hx

/-- A vacant slot may be handed to any holder, who gives up what he held before. -/
theorem Sound.hold [DecidableEq ι] (h : cfi.Sound loc) {l : Location} (hv : cfi.Vacant loc l)
    (x : ι) : cfi.Sound (update loc x (some l)) := by
  have hcases : ∀ y m, update loc x (some l) y = some m → (y = x ∧ m = l) ∨
      (y ≠ x ∧ loc y = some m) := by
    intro y m hy
    by_cases hyx : y = x
    · subst hyx
      exact Or.inl ⟨rfl, by simpa [eq_comm] using hy⟩
    · exact Or.inr ⟨hyx, by simpa [hyx] using hy⟩
  refine ⟨h.lists, ?_, ?_, h.free, h.nodup, ?_⟩
  · intro y m hy
    rcases hcases y m hy with ⟨-, rfl⟩ | ⟨-, hy⟩
    · exact hv.slot
    · exact h.held y m hy
  · intro y z m hy hz
    rcases hcases y m hy with ⟨hyx, hm⟩ | ⟨-, hy'⟩ <;>
      rcases hcases z m hz with ⟨hzx, hm'⟩ | ⟨-, hz'⟩
    · exact hyx.trans hzx.symm
    · exact (hv.not_held z (hm ▸ hz')).elim
    · exact (hv.not_held y (hm' ▸ hy')).elim
    · exact h.inj y z m hy' hz'
  · intro y m hy
    rcases hcases y m hy with ⟨-, rfl⟩ | ⟨-, hy⟩
    · exact hv.not_free
    · exact h.disjoint y m hy

/-- One offset pushed onto the free list of file `i` keeps the invariant if and only if it is
that of a vacant slot. -/
theorem Sound.push_iff (h : cfi.Sound loc) (hi : i < cfi.files) {fcl : FreeChunkList} {o : ℤ}
    (hok : fcl.Ok) (hst : fcl.stack.map slotOffset = o :: cfi.freeOffsets i) :
    Sound (cfi.setFcl i fcl) loc ↔ cfi.Vacant loc ((i : ℤ), o) := by
  have hoff : ∀ j, freeOffsets (cfi.setFcl i fcl) j =
      if j = i then o :: cfi.freeOffsets i else cfi.freeOffsets j := fun j => by
    rw [freeOffsets_setFcl, hst]
  constructor
  · intro h'
    have hnd := h'.nodup i hi
    rw [hoff, if_pos rfl, List.nodup_cons] at hnd
    refine ⟨?_, fun x hx => ?_, by simpa using hnd.1⟩
    · have := h'.free i hi o (by simp [hoff])
      exact ⟨this.index_nonneg, this.index_lt, this.aligned, this.nonneg, this.lt_size⟩
    · exact h'.disjoint x _ hx (by simp [hoff])
  · intro hv
    have hext := extends_setFcl cfi i fcl
    refine ⟨fun j hj => ?_, fun x l hx => (h.held x l hx).of_extends hext, h.inj,
      fun j hj p hp => ?_, fun j hj => ?_, fun x l hx hp => ?_⟩
    · by_cases hji : j = i
      · simpa [hji] using hok
      · simpa [hji] using h.lists j hj
    · rw [hoff] at hp
      split_ifs at hp with hji
      · subst hji
        rcases List.mem_cons.1 hp with rfl | hp
        · exact hv.slot.of_extends hext
        · exact (h.free j hj p hp).of_extends hext
      · exact (h.free j hj p hp).of_extends hext
    · rw [hoff]
      split_ifs with hji
      · exact List.nodup_cons.2 ⟨by simpa using hv.not_free, h.nodup i hi⟩
      · exact h.nodup j hj
    · rw [hoff] at hp
      split_ifs at hp with hji
      · rcases List.mem_cons.1 hp with hl | hp
        · have hl1 := (h.held x l hx).index_nonneg
          exact hv.not_held x (hx.trans (congrArg some (Prod.ext (by simp; omega) hl)))
        · exact h.disjoint x l hx (hji ▸ hp)
      · exact h.disjoint x l hx hp

end ChunkFileInfo

end Agilefs
