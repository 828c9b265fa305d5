import Agilefs.StoreSteps

/-!
# Failed puts

`block_write` takes a slot before it writes to it and records it, and gives nothing back when
one of these fails. `sameSpace_iff` says which failed puts leave the store as it was : those
whose key is found, which fail in `db_put` and take no slot.

A slot is accounted for if a key records it or it is on the free list of its file. Runs keep
that (`Tidy.step`) if every put that has to write a new chunk succeeds, and no key that is
present is taken for absent. `failed_put_counterexample` is a put that loses a slot.
-/

namespace Agilefs

open CInt Posix Function

variable {K P : Type*}

namespace Store

/-- The same records, free lists and file sizes. -/
structure SameSpace (s s' : Store K P) : Prop where
  db : s'.db = s.db
  fcls : s'.cfi.fcls = s.cfi.fcls
  curSize : s'.cfi.curSize = s.cfi.curSize

/-- A key records the slot, or it is on the free list of its file. -/
def Accounted (s : Store K P) (l : Location) : Prop :=
  (∃ k, s.db.loc k = some l) ∨ ∃ e, (s.cfi.fcls l.1.toNat).Has e ∧ slotOffset e = l.2

/-- Every slot is accounted for. -/
def NoneLost (s : Store K P) : Prop :=
  ∀ l, s.cfi.Slot l → s.Accounted l

/-- What a run starts from and keeps. -/
structure Tidy (s : Store K P) : Prop where
  noneLost : s.NoneLost
  aligned : ∀ i < s.cfi.files, s.cfi.curSize i % 4096 = 0
  lists : ∀ i < s.cfi.files, (s.cfi.fcls i).Shaped
  free : ∀ i < s.cfi.files, ∀ e, (s.cfi.fcls i).Has e → 0 ≤ slotOffset e
  opened : ∀ i < s.cfi.files, ∃ n, s.os.ino (s.cfi.fds i) = some n

/-- A put finds its key, or writes and records a new chunk for a key that is absent. A delete does
not remove the record of a key that it does not find. -/
def Settled (s : Store K P) : StoreOp K → Prop
  | .put key _ o => Finds o.dbGet s.db key ∨
      (s.db key = none ∧ (∃ m, o.pwrite fspSize = some m ∧ fspSize ≤ m) ∧ o.writeHashDb = 0)
  | .del key o => o.dbGet = 0 ∨ s.db key = none ∨ o.dbDel ≠ 0

/-- The records and files of `s'` hold and free the slots of `s`, and every slot that is new is
recorded. -/
theorem NoneLost.mono {s s' : Store K P} (h : s.NoneLost)
    (hslot : ∀ l, s'.cfi.Slot l → s.cfi.Slot l ∨ ∃ k, s'.db.loc k = some l)
    (hkey : ∀ l k, s.db.loc k = some l → ∃ k', s'.db.loc k' = some l)
    (hfree : ∀ l, s.cfi.Slot l → ∀ e, (s.cfi.fcls l.1.toNat).Has e → slotOffset e = l.2 →
      s'.Accounted l) : s'.NoneLost := by
  intro l hl
  rcases hslot l hl with hl | hl
  · rcases h l hl with ⟨k, hk⟩ | ⟨e, he, hel⟩
    · exact Or.inl (hkey l k hk)
    · exact hfree l hl e he hel
  · exact Or.inl hl

variable [DecidableEq K] {whd : WriteHashDb K} {o : Outcome} {s s' : Store K P} {key : K}

omit [DecidableEq K] in
/-- A put that takes a slot changes a free list or a size. -/
theorem not_sameSpace_of_takeSlot {i : ℕ} {off : ℤ} (ht : s.cfi.takeSlot i = some (s'.cfi, off)) :
    ¬SameSpace s s' := by
  rintro ⟨-, hfcls, hsize⟩
  obtain ⟨fcl, r, hget, ⟨-, hcfi, -⟩ | ⟨hr, hcfi, -⟩⟩ := ChunkFileInfo.takeSlot_some ht
  · have := congrFun hsize i
    rw [hcfi, ChunkFileInfo.grow_curSize, if_pos rfl] at this
    simp [ChunkFileInfo.setFcl] at this
  · rcases FreeChunkList.getFirstFreeChunk_cases hget with ⟨-, -, hr'⟩ | ⟨-, e, -, hfcl, -⟩
    · exact hr hr'
    · have := congrArg FreeChunkList.current (congrFun hfcls i)
      rw [hcfi, ChunkFileInfo.setFcl_fcls, if_pos rfl, hfcl] at this
      simp at this

/-- A put that fails leaves the records, the free lists and the sizes as they were if and only if
it has found its key. -/
theorem sameSpace_iff (whd : WriteHashDb K) {buf : List UInt8} {size : ℕ}
    (hput : s.putNewChunk whd o key buf size = some (s', -1)) :
    SameSpace s s' ↔ Finds o.dbGet s.db key := by
  by_cases hf : Finds o.dbGet s.db key
  · refine ⟨fun _ => hf, fun _ => ?_⟩
    obtain ⟨bd, -, ⟨-, hret, -⟩ | ⟨-, -, rfl⟩⟩ := putNewChunk_found whd hf hput
    · omega
    · exact ⟨rfl, rfl, rfl⟩
  · refine ⟨fun hs => ?_, fun h => (hf h).elim⟩
    obtain ⟨i, -, -, -, off, ht, -⟩ := putNewChunk_not_found whd hf hput
    exact (not_sameSpace_of_takeSlot ht hs).elim

/-! ## Runs -/

omit [DecidableEq K] in
/-- A complete `pwrite` to a slot of an open file. -/
theorem Tidy.writeSlot_eq (h : s.Tidy) {i : ℕ} (hi : i < s.cfi.files) {off : ℤ} (hoff : 0 ≤ off)
    (block : Block) (hw : ∃ m, o.pwrite fspSize = some m ∧ fspSize ≤ m) :
    (s.writeSlot o block.val fspSize i off).2 = 4096 := by
  obtain ⟨n, hn⟩ := h.opened i hi
  obtain ⟨m, hm, hle⟩ := hw
  have hlen : (block.val.take fspSize).length = fspSize := by
    simp [block.property, fspSize]
  unfold fspSize at hle
  simp only [writeSlot, Os.pwrite, if_neg (by omega : ¬off < 0), hn, hlen, hm]
  simp [block.property, fspSize]
  omega

omit [DecidableEq K] in
/-- Other records at the same places. -/
theorem Tidy.of_loc (h : s.Tidy) (hcfi : s'.cfi = s.cfi) (hos : s'.os = s.os)
    (hloc : s'.db.loc = s.db.loc) : s'.Tidy := by
  refine ⟨fun l hl => ?_, ?_, ?_, ?_, ?_⟩
  · rw [Accounted, hloc, hcfi]
    exact h.noneLost l (hcfi ▸ hl)
  · rw [hcfi]
    exact h.aligned
  · rw [hcfi]
    exact h.lists
  · rw [hcfi]
    exact h.free
  · rw [hcfi, hos]
    exact h.opened

omit [DecidableEq K] in
/-- A file grows by a slot that is recorded. -/
theorem Tidy.takeNew (h : s.Tidy) {i : ℕ} (hi : i < s.cfi.files) (hcfi : s'.cfi = s.cfi.grow i)
    (hos : ∀ fd, s'.os.ino fd = s.os.ino fd)
    (hnew : s'.db.loc key = some ((i : ℤ), (s.cfi.curSize i : ℤ)))
    (hkey : ∀ l k, s.db.loc k = some l → ∃ k', s'.db.loc k' = some l) : s'.Tidy := by
  have hgrow : ∀ j, s'.cfi.curSize j =
      if j = i then s.cfi.curSize i + 4096 else s.cfi.curSize j := fun j => by
    rw [hcfi, ChunkFileInfo.grow_curSize]
  have htot : s'.cfi.total = s.cfi.total := by rw [hcfi]; rfl
  have hfiles : s'.cfi.files = s.cfi.files := by simp [ChunkFileInfo.files, htot]
  have hfcls : s'.cfi.fcls = s.cfi.fcls := by rw [hcfi]; rfl
  have hfds : s'.cfi.fds = s.cfi.fds := by rw [hcfi]; rfl
  have hal := h.aligned i hi
  refine ⟨h.noneLost.mono (fun l hl => ?_) hkey fun l hl e he hel => ?_, fun j hj => ?_,
    by simpa only [hfiles, hfcls] using h.lists, by simpa only [hfiles, hfcls] using h.free,
    by simpa only [hfiles, hfds, hos] using h.opened⟩
  · have hslot := hl.index_nonneg
    have haligned := hl.aligned
    have hnonneg := hl.nonneg
    have hsize := hl.lt_size
    by_cases hlt : l.2 < s.cfi.curSize l.1.toNat
    · exact Or.inl ⟨hslot, htot ▸ hl.index_lt, haligned, hnonneg, hlt⟩
    · -- the slot is the new one
      have hli : l.1.toNat = i := by
        by_contra hli
        rw [hgrow, if_neg hli] at hsize
        exact hlt hsize
      rw [hgrow, if_pos hli] at hsize
      rw [hli] at hlt
      have hl' : l = ((i : ℤ), (s.cfi.curSize i : ℤ)) :=
        Prod.ext (by simp only; omega) (by simp only; omega)
      exact Or.inr ⟨key, hl' ▸ hnew⟩
  · exact Or.inr ⟨e, by rw [hfcls]; exact he, hel⟩
  · rw [hgrow]
    split_ifs with hji
    · omega
    · exact h.aligned j (hfiles ▸ hj)

omit [DecidableEq K] in
/-- A slot is popped and recorded. -/
theorem Tidy.takeFree (h : s.Tidy) {i : ℕ} (hi : i < s.cfi.files) {e : UInt32}
    (hcur : (s.cfi.fcls i).current ≠ -1)
    (he : (s.cfi.fcls i).freeList (s.cfi.fcls i).current = some e)
    (hcfi : s'.cfi = s.cfi.setFcl i { s.cfi.fcls i with current := (s.cfi.fcls i).current - 1 })
    (hos : ∀ fd, s'.os.ino fd = s.os.ino fd) (hnew : s'.db.loc key = some ((i : ℤ), slotOffset e))
    (hkey : ∀ l k, s.db.loc k = some l → ∃ k', s'.db.loc k' = some l) : s'.Tidy := by
  obtain ⟨hshaped, -, hsub, hrest⟩ := (h.lists i hi).pop hcur he
  have hsize : s'.cfi.curSize = s.cfi.curSize := by rw [hcfi]; rfl
  have htot : s'.cfi.total = s.cfi.total := by rw [hcfi]; rfl
  have hfiles : s'.cfi.files = s.cfi.files := by simp [ChunkFileInfo.files, htot]
  have hfds : s'.cfi.fds = s.cfi.fds := by rw [hcfi]; rfl
  refine ⟨h.noneLost.mono (fun l hl => Or.inl ?_) hkey fun l hl x hx hxl => ?_, ?_,
    fun j hj => ?_, fun j hj x hx => ?_, by simpa only [hfiles, hfds, hos] using h.opened⟩
  · exact ⟨hl.index_nonneg, htot ▸ hl.index_lt, hl.aligned, hl.nonneg, hsize ▸ hl.lt_size⟩
  · by_cases hli : l.1.toNat = i
    · rw [hli] at hx
      rcases hrest x hx with rfl | hx
      · have hslot := hl.index_nonneg
        have hl' : l = ((i : ℤ), slotOffset x) := Prod.ext (by simp only; omega) hxl.symm
        exact Or.inl ⟨key, hl' ▸ hnew⟩
      · exact Or.inr ⟨x, by rw [hcfi, ChunkFileInfo.setFcl_fcls, if_pos hli]; exact hx, hxl⟩
    · exact Or.inr ⟨x, by rw [hcfi, ChunkFileInfo.setFcl_fcls, if_neg hli]; exact hx, hxl⟩
  · simpa only [hfiles, hsize] using h.aligned
  · rw [hcfi, ChunkFileInfo.setFcl_fcls]
    split_ifs
    · exact hshaped
    · exact h.lists j (hfiles ▸ hj)
  · rw [hcfi, ChunkFileInfo.setFcl_fcls] at hx
    split_ifs at hx with hji
    · exact h.free i hi x (hsub x hx)
    · exact h.free j (hfiles ▸ hj) x hx

/-- A put that records the slot it takes for a key that was absent. -/
theorem Tidy.take (h : s.Tidy) (hk : s.db key = none) {i : ℕ} (hi : i < s.cfi.files) {off : ℤ}
    (ht : s.cfi.takeSlot i = some (s'.cfi, off)) (hos : ∀ fd, s'.os.ino fd = s.os.ino fd)
    (hdb : s'.db = update s.db key (some ⟨i, 1, off⟩)) : s'.Tidy := by
  have hnew : s'.db.loc key = some ((i : ℤ), off) := by
    rw [hdb, Db.loc_update, update_self]
    rfl
  have hkey : ∀ l k, s.db.loc k = some l → ∃ k', s'.db.loc k' = some l := by
    intro l k hl
    refine ⟨k, ?_⟩
    have hne : k ≠ key := by
      rintro rfl
      simp [Db.loc, hk] at hl
    rw [hdb, Db.loc_update, update_of_ne hne]
    exact hl
  obtain ⟨fcl, r, hget, hcases⟩ := ChunkFileInfo.takeSlot_some ht
  rcases FreeChunkList.getFirstFreeChunk_cases hget with ⟨-, rfl, hr⟩ | ⟨hcur, e, he, rfl, hr⟩
  · obtain ⟨-, hcfi, hoff⟩ | ⟨hr', -⟩ := hcases
    · rw [ChunkFileInfo.setFcl_self] at hcfi
      exact h.takeNew hi hcfi hos (hoff ▸ hnew) hkey
    · exact (hr' hr).elim
  · have hpos := h.free i hi e ((h.lists i hi).pop hcur he).2.1
    obtain ⟨hr', -⟩ | ⟨-, hcfi, hoff⟩ := hcases
    · unfold slotOffset at hpos
      omega
    · have hoff' : off = slotOffset e := by rw [hoff, hr, slotOffset_eq]
      exact h.takeFree hi hcur he hcfi hos (hoff' ▸ hnew) hkey

omit [DecidableEq K] in
/-- A push of slot `0` of file `0`. -/
theorem Tidy.push (h : s.Tidy) {fcl : FreeChunkList} {r : ℤ} {malloc : Option Page}
    (hadd : (s.cfi.fcls 0).addFreeChunk 0 malloc = some (fcl, r)) :
    Tidy (⟨s.cfi.setFcl 0 fcl, s.db, s.os⟩ : Store K P) := by
  refine ⟨fun l hl => ?_, h.aligned, fun j hj => ?_, fun j hj e he => ?_, h.opened⟩
  · have hl' : s.cfi.Slot l := ⟨hl.index_nonneg, hl.index_lt, hl.aligned, hl.nonneg, hl.lt_size⟩
    rcases h.noneLost l hl' with hk | ⟨e, he, hel⟩
    · exact Or.inl hk
    · refine Or.inr ⟨e, ?_, hel⟩
      simp only [ChunkFileInfo.setFcl_fcls]
      split_ifs with hl0
      · exact ((h.lists 0 (hl0 ▸ hl'.index_lt_files)).push hadd).2.1 e (hl0 ▸ he)
      · exact he
  · simp only [ChunkFileInfo.setFcl_fcls]
    split_ifs with hj0
    · exact ((h.lists 0 (hj0 ▸ hj)).push hadd).1
    · exact h.lists j hj
  · simp only [ChunkFileInfo.setFcl_fcls] at he
    split_ifs at he with hj0
    · rcases ((h.lists 0 (hj0 ▸ hj)).push hadd).2.2 e he with he | rfl
      · exact h.free 0 (hj0 ▸ hj) e he
      · decide
    · exact h.free j hj e he

/-- A settled step keeps every slot accounted for. -/
theorem Tidy.step (h : s.Tidy) {op : StoreOp K} (hop : s.Settled op)
    (hs : s.step whd op = some s') : s'.Tidy := by
  cases op with
  | put key block o =>
    obtain ⟨⟨s₁, ret⟩, hput, rfl⟩ := Option.map_eq_some_iff.1 hs
    by_cases hf : Finds o.dbGet s.db key
    · obtain ⟨bd, hbd, ⟨-, -, rfl⟩ | ⟨-, -, rfl⟩⟩ := putNewChunk_found whd hf hput
      · refine h.of_loc rfl rfl ?_
        rw [Db.loc_update]
        exact update_eq_self_iff.2 (Db.loc_eq_some.2 ⟨bd, hbd, rfl⟩).symm
      · exact h
    · obtain ⟨hk, hw, hx⟩ := hop.resolve_left hf
      obtain ⟨i, hi, -, -, off, ht, hos, hres⟩ := putNewChunk_not_found whd hf hput
      have hino : ∀ fd, s₁.os.ino fd = s.os.ino fd := fun fd => by
        rw [hos]
        exact Os.pwrite_ino _ _ _ _ _ _
      have hoff : 0 ≤ off := by
        obtain ⟨fcl, r, hget, ⟨-, -, rfl⟩ | ⟨hr, -, rfl⟩⟩ := ChunkFileInfo.takeSlot_some ht
        · omega
        · rcases FreeChunkList.getFirstFreeChunk_cases hget with ⟨-, -, hr'⟩ |
            ⟨hcur, e, he, -, hr'⟩
          · exact (hr hr').elim
          · have := h.free i hi e ((h.lists i hi).pop hcur he).2.1
            rwa [slotOffset_eq, ← hr'] at this
      rcases hres with ⟨-, -, -, hdb⟩ | ⟨hfail, -⟩
      · exact h.take hk hi ht hino hdb
      · exact (hfail ⟨h.writeSlot_eq hi hoff block hw, hx⟩).elim
  | del key o =>
    obtain ⟨⟨s₁, ret⟩, hdel, rfl⟩ := Option.map_eq_some_iff.1 hs
    by_cases hf : Finds o.dbGet s.db key
    · rw [delChunk_found hf hdel]
      exact h
    · obtain ⟨fcl, r, hadd, rfl⟩ := delChunk_not_found hf hdel
      have hdb : (dbDel o.dbDel s.db key).1 = s.db := by
        rcases dbDel_eq o.dbDel s.db key with hdb | ⟨hrc, hdb⟩
        · exact hdb
        · have hk : s.db key = none := by
            rcases hop with hget | hk | hne
            · simpa [Finds, hget] using hf
            · exact hk
            · exact (hne hrc).elim
          rw [hdb, update_eq_self_iff.2 hk.symm]
      rw [hdb]
      exact h.push hadd

/-- A put that fails leaves the store as it was if and only if it has found its key. In a run whose
steps are all settled no slot is ever lost. -/
theorem failed_put_keeps_iff (whd : WriteHashDb K) :
    (∀ (s s' : Store K P) (o : Outcome) (key : K) (buf : List UInt8) (size : ℕ),
      s.putNewChunk whd o key buf size = some (s', -1) →
        (SameSpace s s' ↔ Finds o.dbGet s.db key)) ∧
    ∀ (s s' : Store K P) (ops : List (StoreOp K)), s.Tidy →
      Runs.Each (step whd) Settled s ops → Runs.exec (step whd) s ops = some s' →
        s'.NoneLost := by
  refine ⟨fun s s' o key buf size => sameSpace_iff whd, fun s s' ops hs hops hrun => ?_⟩
  exact (Runs.Each.exec_invariant (fun _ _ _ h hop hs => h.step hop hs) hops hs hrun).noneLost

omit [DecidableEq K] in
theorem tidy_empty (n : ℕ) : (empty n : Store K P).Tidy := by
  have hnone : ∀ i e, ¬((empty n : Store K P).cfi.fcls i).Has e := fun i e =>
    FreeChunkList.not_has_of_current rfl e
  refine ⟨fun l hl => ?_, fun i _ => rfl, fun i _ => FreeChunkList.shaped_empty,
    fun i _ e he => (hnone i e he).elim, fun i hi => ⟨i, empty_ino hi⟩⟩
  have hpos := hl.nonneg
  have hlt := hl.lt_size
  simp only [empty] at hlt
  omega

/-- A put, a second put of the same key that fails, and a delete of another key. -/
theorem failed_put_keeps_iff_run :
    ∃ s', Runs.exec (step (.insert ℕ)) (empty 1 : Store ℕ ℕ)
        [.put 7 (fillBlock 1) {}, .put 7 (fillBlock 1) { dbPut := 1 }, .del 8 {}] = some s' ∧
      s'.NoneLost := by
  have hput : (step (.insert ℕ) (empty 1 : Store ℕ ℕ) (.put 7 (fillBlock 1) {})).map
      (fun s => (s.db 7).isSome) = some true := by
    decide +kernel
  have hrun : (Runs.exec (step (.insert ℕ)) (empty 1 : Store ℕ ℕ)
      [.put 7 (fillBlock 1) {}, .put 7 (fillBlock 1) { dbPut := 1 }, .del 8 {}]).isSome := by
    decide +kernel
  obtain ⟨s', hs'⟩ := Option.isSome_iff_exists.1 hrun
  refine ⟨s', hs', (failed_put_keeps_iff (.insert ℕ)).2 _ _ _ (tidy_empty 1) ?_ hs'⟩
  refine ⟨Or.inr ⟨rfl, ⟨_, rfl, le_rfl⟩, rfl⟩, fun s₁ hs₁ => ⟨Or.inl ⟨rfl, ?_⟩, fun s₂ _ =>
    ⟨Or.inl rfl, fun _ _ => trivial⟩⟩⟩
  simpa [hs₁] using hput

/-- A put whose `pwrite` fails : the file has grown by a slot that nobody holds. -/
theorem failed_put_counterexample :
    ∃ s' : Store ℕ ℕ, putNewChunk (.insert ℕ) { pwrite := fun _ => none } 7 (fillBlock 1).val
        fspSize (empty 1) = some (s', -1) ∧
      (empty 1 : Store ℕ ℕ).cfi.curSize 0 = 0 ∧ s'.cfi.curSize 0 = 4096 ∧
      ¬SameSpace (empty 1) s' ∧ ¬s'.NoneLost := by
  have hput : (putNewChunk (.insert ℕ) { pwrite := fun _ => none } 7 (fillBlock 1).val
      fspSize (empty 1 : Store ℕ ℕ)).map (fun r => (r.2, r.1.cfi.total, r.1.cfi.curSize 0,
        (r.1.cfi.fcls 0).current)) = some (-1, 1, 4096, -1) := by
    decide +kernel
  obtain ⟨⟨s', ret⟩, hs', hres⟩ := Option.map_eq_some_iff.1 hput
  simp only [Prod.mk.injEq] at hres
  obtain ⟨rfl, htot, hsize, hcur⟩ := hres
  have hf : ¬Finds (0 : ℤ) (empty 1 : Store ℕ ℕ).db 7 := by simp [Finds, empty]
  obtain ⟨i, -, -, -, off, -, -, ⟨-, -, h0, -⟩ | ⟨-, -, hdb⟩⟩ :=
    putNewChunk_not_found (.insert ℕ) hf hs'
  · omega
  refine ⟨s', hs', rfl, hsize, fun hsame => ?_, fun hlost => ?_⟩
  · have := congrFun hsame.curSize 0
    rw [hsize] at this
    simp [empty] at this
  · have hslot : s'.cfi.Slot ((0 : ℤ), 0) := by
      refine ⟨le_rfl, ?_, rfl, le_rfl, ?_⟩
      · rw [htot]
        decide
      · simp [hsize]
    rcases hlost _ hslot with ⟨k, hk⟩ | ⟨e, he, -⟩
    · rw [hdb] at hk
      simp [Db.loc, empty] at hk
    · exact FreeChunkList.not_has_of_current hcur e he

end Store

end Agilefs
