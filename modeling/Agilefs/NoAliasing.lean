import Agilefs.Runs
import Agilefs.StoreInvariant

/-!
# Runs of puts and deletes

`del_chunk` tests the return code of `db_get` the wrong way round. A key that is present is
left alone (`delChunk_present`); for a key that is absent the zero record sends slot `0` of
file `0` to the free list (`delChunk_absent`), whoever holds it.

A run of `put_new_chunk` and `del_chunk` with every call succeeding keeps the store well
formed and every block readable exactly when each of its steps is a `FitStep`
(`always_wellFormed_iff`) : a delete of an absent key needs slot `0` of file `0` to be an
allocated slot that is neither recorded nor free, and a put that makes a file longer needs
its size to be a multiple of `FSP_SIZE`.
-/

namespace Agilefs

open Function Posix

/-- A call on the store, with the outcome of the calls it makes. -/
inductive StoreOp (K : Type*) where
  | put (key : K) (block : Block) (o : Outcome)
  | del (key : K) (o : Outcome)

variable {K P : Type*} [DecidableEq K]

namespace Store

/-- One call on the store. -/
def step (whd : WriteHashDb K) (s : Store K P) : StoreOp K → Option (Store K P)
  | .put key block o => (s.putNewChunk whd o key block.val fspSize).map Prod.fst
  | .del key o => (s.delChunk o key).map Prod.fst

/-- Every call succeeds, equal keys carry equal blocks, and a file is found for a new key. -/
def Succeeding (content : K → Block) (s : Store K P) : StoreOp K → Prop
  | .put key block o => o.Succeeds ∧ block = content key ∧
      (s.db key = none → s.cfi.getProperChunkFile ≠ -1)
  | .del _ o => o.Succeeds

/-- The steps that keep the store well formed. -/
def FitStep (s : Store K P) : StoreOp K → Prop
  | .put key _ _ => s.db key = none →
      s.cfi.freeOffsets s.cfi.getProperChunkFile.toNat = [] →
        s.cfi.curSize s.cfi.getProperChunkFile.toNat % 4096 = 0
  | .del key _ => s.db key = none →
      s.cfi.Vacant s.db.loc (0, 0) ∧ (s.cfi.fcls 0).stack.length < 2 ^ 20

theorem slotOffset_zero : slotOffset (UInt32.ofInt 0) = 0 := by
  decide

/-- A delete of an absent key pushes slot `0` of file `0`, or runs off the page table. -/
theorem delChunk_absent_cases {s : Store K P} (hok : (s.cfi.fcls 0).Ok) {o : Outcome}
    (ho : o.Succeeds) (key : K) (hk : s.db key = none) :
    (2 ^ 20 ≤ (s.cfi.fcls 0).stack.length ∧ s.delChunk o key = none) ∨
      ((s.cfi.fcls 0).stack.length < 2 ^ 20 ∧ ∃ fcl, FreeChunkList.Ok fcl ∧
        fcl.stack.map slotOffset = 0 :: s.cfi.freeOffsets 0 ∧
        s.delChunk o key =
          some ({ s with cfi := s.cfi.setFcl 0 fcl }, dbNotFound)) := by
  obtain ⟨p, hp⟩ := Option.isSome_iff_exists.1 ho.malloc
  rw [delChunk_absent ho.dbGet ho.dbDel hk, hp]
  rcases Nat.lt_or_ge (s.cfi.fcls 0).stack.length (2 ^ 20) with hlt | hge
  · obtain ⟨fcl, hadd, hfok, hst⟩ := FreeChunkList.addFreeChunk_ok hok hlt 0 p
    refine Or.inr ⟨hlt, fcl, hfok, ?_, by rw [hadd]; rfl⟩
    rw [hst, List.map_cons, slotOffset_zero, ChunkFileInfo.freeOffsets]
  · exact Or.inl ⟨hge, by rw [FreeChunkList.addFreeChunk_full hok hge]; rfl⟩

omit [DecidableEq K] in
theorem WellFormed.setFcl {s : Store K P} (hwf : s.WellFormed) {i : ℕ} {fcl : FreeChunkList}
    (hs : (s.cfi.setFcl i fcl).Sound s.db.loc) :
    ({ s with cfi := s.cfi.setFcl i fcl } : Store K P).WellFormed :=
  ⟨hs, hwf.opened, hwf.distinct⟩

/-- What a run starts from and keeps. -/
structure Intact (content : K → Block) (s : Store K P) : Prop where
  total_pos : 1 ≤ s.cfi.total
  wellFormed : s.WellFormed
  holds : s.Holds content

omit [DecidableEq K] in
theorem Intact.zero_lt_files {content : K → Block} {s : Store K P} (h : s.Intact content) :
    0 < s.cfi.files := by
  have := h.total_pos
  unfold ChunkFileInfo.files
  omega

variable {whd : WriteHashDb K} {content : K → Block}

/-- A step that fits keeps the store intact. -/
theorem Intact.step (whd : WriteHashDb K) {s : Store K P} {op : StoreOp K} (h : s.Intact content)
    (hA : s.Succeeding content op) (hfit : s.FitStep op) :
    ∃ s', s.step whd op = some s' ∧ s'.Intact content := by
  cases op with
  | put key block o =>
    obtain ⟨ho, rfl, hp⟩ := hA
    obtain ⟨s', ret, hput, hwf', hh', hext, -⟩ :=
      putNewChunk_spec whd h.wellFormed h.holds ho.dbGet hp hfit
    exact ⟨s', by simp [Store.step, hput], by rw [hext.total]; exact h.total_pos, hwf', hh'⟩
  | del key o =>
    cases hk : s.db key with
    | some bd =>
      exact ⟨s, by rw [Store.step, delChunk_present hA.dbGet hk]; rfl, h⟩
    | none =>
      obtain ⟨hvac, hlen⟩ := hfit hk
      have hi := h.zero_lt_files
      rcases delChunk_absent_cases (h.wellFormed.sound.lists 0 hi) hA key hk with ⟨hge, -⟩ |
        ⟨-, fcl, hfok, hst, hdel⟩
      · omega
      · have hsound := (h.wellFormed.sound.push_iff hi hfok hst).2 hvac
        have hwf' := h.wellFormed.setFcl hsound
        refine ⟨{ s with cfi := s.cfi.setFcl 0 fcl }, by rw [Store.step, hdel]; rfl, h.total_pos,
          hwf', ?_⟩
        rw [hwf'.holds_iff]
        exact (h.wellFormed.holds_iff content).1 h.holds

/-- A step that does not fit leaves the store ill formed. -/
theorem Intact.fitStep_of_wellFormed {s s' : Store K P} {op : StoreOp K} (h : s.Intact content)
    (hA : s.Succeeding content op) (hs : s.step whd op = some s') (hwf' : s'.WellFormed) :
    s.FitStep op := by
  cases op with
  | put key block o =>
    obtain ⟨ho, rfl, hp⟩ := hA
    intro hk hnil
    by_contra hal
    obtain ⟨i, hi, hpi, -⟩ := ChunkFileInfo.exists_file_of_ne (hp hk)
    rw [hpi, Int.toNat_natCast] at hnil hal
    obtain ⟨cfi, off, ht, hoff, hunal⟩ := h.wellFormed.sound.takeSlot_unaligned hi hnil hal
    obtain ⟨n, hn⟩ := h.wellFormed.opened i hi
    have hfds : cfi.fds = s.cfi.fds := by
      simp only [ChunkFileInfo.takeSlot, Option.map_eq_some_iff] at ht
      obtain ⟨r, -, hr⟩ := ht
      split_ifs at hr <;> exact congrArg (fun x => ChunkFileInfo.fds x.1) hr.symm
    have hcast : ((off.toNat : ℕ) : ℤ) = off := by omega
    have hret : (s.os.pwrite o.pwrite (cfi.fds i) (content key).val off).2 = fspSize := by
      rw [ho.pwrite, hfds, ← hcast, Os.pwrite_full hn, (content key).property]
      rfl
    rw [Store.step, putNewChunk_absent whd ho.dbGet hk,
      blockWrite_eq hpi ht key (content key).property] at hs
    simp only [if_pos hret, if_pos ho.writeHashDb, Option.map_some, Option.some.injEq] at hs
    subst hs
    have hslot := hwf'.slot (k := key) (update_self _ _ _)
    exact hunal hslot.aligned
  | del key o =>
    intro hk
    have hi := h.zero_lt_files
    rcases delChunk_absent_cases (h.wellFormed.sound.lists 0 hi) hA key hk with ⟨-, hdel⟩ |
      ⟨hlen, fcl, hfok, hst, hdel⟩
    · simp [Store.step, hdel] at hs
    · rw [Store.step, hdel, Option.map_some, Option.some.injEq] at hs
      subst hs
      exact ⟨(h.wellFormed.sound.push_iff hi hfok hst).1 hwf'.sound, hlen⟩

/-- A run of puts and deletes with every call succeeding is well formed at every point, with
every block readable, if and only if each of its steps fits. -/
theorem always_wellFormed_iff (whd : WriteHashDb K) (content : K → Block) {s : Store K P}
    (htotal : 1 ≤ s.cfi.total) (hwf : s.WellFormed) (hh : s.Holds content)
    {ops : List (StoreOp K)} (hA : Runs.Each (step whd) (Succeeding content) s ops) :
    Runs.Always (step whd) (fun s => s.WellFormed ∧ s.Holds content) (fun _ _ _ => True) s ops ↔
      Runs.Each (step whd) FitStep s ops :=
  Runs.always_iff_each (I := Intact content)
    (fun _ h => ⟨h.wellFormed, h.holds⟩)
    (fun _ _ h hA hfit => by
      obtain ⟨s', hs', h'⟩ := h.step whd hA hfit
      exact ⟨s', hs', trivial, h'⟩)
    (fun _ _ _ h hA hs _ hP => h.fitStep_of_wellFormed hA hs hP.1)
    ⟨htotal, hwf, hh⟩ hA

/-- A chunk put and deleted again. -/
theorem always_wellFormed_put_del :
    Runs.Always (step (.insert ℕ))
      (fun s : Store ℕ ℕ => s.WellFormed ∧ s.Holds fun _ => fillBlock 1)
      (fun _ _ _ => True) (empty 1) [.put 7 (fillBlock 1) {}, .del 7 {}] := by
  have hput : (step (.insert ℕ) (empty 1 : Store ℕ ℕ) (.put 7 (fillBlock 1) {})).map
      (fun s => (s.db 7).isSome) = some true := by
    decide +kernel
  refine (always_wellFormed_iff (.insert ℕ) (fun _ => fillBlock 1) (by decide)
    (wellFormed_empty 1) (holds_empty _ 1) ?_).2 ?_
  · exact ⟨⟨Outcome.succeeds_default, rfl, fun _ => by decide⟩,
      fun s' _ => ⟨Outcome.succeeds_default, fun _ _ => trivial⟩⟩
  · refine ⟨fun _ _ => by decide, fun s' hs' => ⟨fun hk => ?_, fun _ _ => trivial⟩⟩
    simp [hs', hk] at hput

/-- Deleting a key that was never put frees slot `0` of a file of size `0`, and the next two
chunks are written to that one slot. -/
theorem delete_absent_counterexample :
    ((empty 1 : Store ℕ ℕ).WellFormed ∧ (empty 1 : Store ℕ ℕ).Holds fun _ => fillBlock 1) ∧
    Runs.Each (step (.insert ℕ)) (Succeeding fun _ => fillBlock 1) (empty 1 : Store ℕ ℕ)
      [.del 7 {}] ∧
    ¬Runs.Always (step (.insert ℕ))
      (fun s : Store ℕ ℕ => s.WellFormed ∧ s.Holds fun _ => fillBlock 1) (fun _ _ _ => True)
      (empty 1) [.del 7 {}] ∧
    (Runs.exec (step (.insert ℕ)) (empty 1 : Store ℕ ℕ)
      [.del 7 {}, .put 8 (fillBlock 1) {}, .put 9 (fillBlock 2) {}]).map
        (fun s => (s.db.loc 8, s.db.loc 9)) = some (some (0, 0), some (0, 0)) := by
  refine ⟨⟨wellFormed_empty 1, holds_empty _ 1⟩, ⟨Outcome.succeeds_default, fun _ _ => trivial⟩,
    ?_, by decide +kernel⟩
  rintro ⟨-, s', hs', -, hwf, -⟩
  rcases delChunk_absent_cases (s := (empty 1 : Store ℕ ℕ)) FreeChunkList.ok_empty
    Outcome.succeeds_default 7 rfl with ⟨-, hdel⟩ | ⟨-, fcl, -, hst, hdel⟩
  · simp [step, hdel] at hs'
  · rw [step, hdel, Option.map_some, Option.some.injEq] at hs'
    subst hs'
    have hfree := hwf.sound.free 0 Nat.one_pos 0
      (by rw [ChunkFileInfo.freeOffsets_setFcl, if_pos rfl, hst]; exact List.mem_cons_self)
    exact absurd hfree.lt_size (by simp [empty, ChunkFileInfo.setFcl])

end Store

end Agilefs
