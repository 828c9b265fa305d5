import Agilefs.NoAliasing

/-!
# Reference counts

The references of a key are counted next to the store : a put adds one, a delete takes one
away while there is one. `RefsExact` says that the database agrees with the count, and
`DelExact` what a delete may do to the free lists : nothing if there is no reference, one
push of the key's own slot if the last reference goes.

`refCounts_exact_iff` : from an empty database the counts are exact throughout a run if and
only if the run deletes nothing. Both branches of `del_chunk` break them : a key with
references keeps its count, and a key without pushes a slot onto a free list.
-/

namespace Agilefs

open Function Posix CInt

variable {K P : Type*} [DecidableEq K]

/-- The references after a call. -/
def StoreOp.count (refs : K → ℕ) : StoreOp K → K → ℕ
  | .put key _ _ => update refs key (refs key + 1)
  | .del key _ => update refs key (refs key - 1)

/-- The call is a `put_new_chunk`. -/
def StoreOp.IsPut : StoreOp K → Prop
  | .put _ _ _ => True
  | .del _ _ => False

namespace Store

/-- One call on the store, with its effect on the references. -/
def countedStep (whd : WriteHashDb K) (x : Store K P × (K → ℕ)) (op : StoreOp K) :
    Option (Store K P × (K → ℕ)) :=
  (x.1.step whd op).map fun s => (s, op.count x.2)

/-- A key is present if and only if it has references, and then its count is their number. -/
def RefsExact (x : Store K P × (K → ℕ)) : Prop :=
  ∀ k, ((x.1.db k).isSome ↔ 0 < x.2 k) ∧ ∀ bd, x.1.db k = some bd → bd.refCount = x.2 k

/-- A delete without a reference changes nothing, and the delete of the last reference pushes
the slot of the key onto the free list of its file and onto no other. -/
def DelExact (x : Store K P × (K → ℕ)) : StoreOp K → Store K P × (K → ℕ) → Prop
  | .put _ _ _, _ => True
  | .del key _, y =>
    (x.2 key = 0 →
      y.1.db = x.1.db ∧ y.1.cfi.fcls = x.1.cfi.fcls ∧ y.1.cfi.curSize = x.1.cfi.curSize) ∧
    (x.2 key = 1 → ∀ bd, x.1.db key = some bd → ∀ i,
      y.1.cfi.freeOffsets i = if (i : ℤ) = bd.fdIndex then bd.offset :: x.1.cfi.freeOffsets i
        else x.1.cfi.freeOffsets i)

/-- Every call succeeds, a file is found for a new key, and no count passes `2 ^ 31 - 1`. -/
def CountSucceeding (x : Store K P × (K → ℕ)) : StoreOp K → Prop
  | .put key _ o => o.Succeeds ∧ (x.1.db key = none → x.1.cfi.getProperChunkFile ≠ -1) ∧
      ∀ bd, x.1.db key = some bd → bd.refCount < 2 ^ 31 - 1
  | .del _ o => o.Succeeds

/-- What a run without deletes keeps : nothing is free, and the counts are exact. -/
structure Unfreed (x : Store K P × (K → ℕ)) : Prop where
  lists : ∀ i < x.1.cfi.files, (x.1.cfi.fcls i).Ok ∧ (x.1.cfi.fcls i).stack = []
  opened : ∀ i < x.1.cfi.files, ∃ n, x.1.os.ino (x.1.cfi.fds i) = some n
  exact : RefsExact x

variable {whd : WriteHashDb K}

/-- A put that counts one reference keeps the counts exact. -/
theorem RefsExact.put {s s' : Store K P} {refs : K → ℕ} (h : RefsExact (s, refs)) {key : K}
    (hc : Counted s s' key 0) : RefsExact (s', update refs key (refs key + 1)) := by
  intro k
  obtain ⟨hsome, heq⟩ := h k
  simp only at hsome heq
  refine ⟨?_, fun bd (hbd : s'.db k = some bd) => ?_⟩
  · by_cases hk : k = key
    · simp [hc.isSome, hk]
    · simp only [hc.isSome, hk, false_and, or_false, update_of_ne hk]
      exact hsome
  · have hcount := hc.refCount k
    simp only [Store.refCount, hbd, Option.map_some, Option.getD_some, and_true] at hcount
    show bd.refCount = ((update refs key (refs key + 1) k : ℕ) : ℤ)
    rw [hcount]
    by_cases hk : k = key
    · subst hk
      cases hdb : s.db k with
      | none =>
        have : refs k = 0 := by simpa [hdb] using hsome
        simp [this]
      | some bd' => simpa using heq bd' hdb
    · rw [if_neg hk, update_of_ne hk, add_zero]
      have hpres : (s.db k).isSome := by simpa [hbd, hk] using hc.isSome k
      obtain ⟨bd', hbd'⟩ := Option.isSome_iff_exists.1 hpres
      simpa [hbd'] using heq bd' hbd'

/-- A put keeps the lists empty and the counts exact. -/
theorem Unfreed.put (whd : WriteHashDb K) {x : Store K P × (K → ℕ)} (h : Unfreed x) {key : K}
    {block : Block} {o : Outcome} (hA : CountSucceeding x (.put key block o)) :
    ∃ y, countedStep whd x (.put key block o) = some y ∧ Unfreed y := by
  obtain ⟨s, refs⟩ := x
  obtain ⟨ho, hp, hfit⟩ := hA
  suffices hput : ∃ s', s.putNewChunk whd o key block.val fspSize = some (s', 0) ∧
      Counted s s' key 0 ∧ s'.cfi.total = s.cfi.total ∧ s'.cfi.fcls = s.cfi.fcls ∧
      ∀ i, s'.os.ino (s'.cfi.fds i) = s.os.ino (s.cfi.fds i) by
    obtain ⟨s', hput, hc, htotal, hfcls, hino⟩ := hput
    refine ⟨(s', _), by rw [countedStep, step, hput]; rfl, ?_, ?_, h.exact.put hc⟩
    · simpa [ChunkFileInfo.files, htotal, hfcls] using h.lists
    · simpa [ChunkFileInfo.files, htotal, hino] using h.opened
  cases hk : s.db key with
  | some bd =>
    have hrange := hfit bd hk
    have hpos : bd.refCount = refs key := (h.exact key).2 bd hk
    have hstep := putNewChunk_present whd ho.dbGet hk block.val fspSize
    rw [if_pos ho.dbPut] at hstep
    exact ⟨_, hstep, Counted.of_increment hk (int32_of_range (by omega) (by omega)) rfl,
      rfl, rfl, fun _ => rfl⟩
  | none =>
    obtain ⟨i, hi, hpi, -⟩ := ChunkFileInfo.exists_file_of_ne (hp hk)
    obtain ⟨hok, hnil⟩ := h.lists i hi
    have hoff : s.cfi.freeOffsets i = [] := by simp [ChunkFileInfo.freeOffsets, hnil]
    obtain ⟨n, hn⟩ := h.opened i hi
    rcases ChunkFileInfo.takeSlot_cases hok (by simp [hoff]) with ⟨-, ht⟩ | ⟨_, _, _, hcons, -⟩
    · have hret : (s.os.pwrite o.pwrite ((s.cfi.grow i).fds i) block.val (s.cfi.curSize i)).2 =
          fspSize := by
        have hn' : s.os.ino ((s.cfi.grow i).fds i) = some n := hn
        rw [ho.pwrite, Os.pwrite_full hn', block.property]
        rfl
      have hstep := putNewChunk_absent whd ho.dbGet hk block.val fspSize
      rw [blockWrite_eq hpi ht key block.property] at hstep
      simp only [if_pos hret, if_pos ho.writeHashDb, Option.map_some, if_true] at hstep
      exact ⟨_, hstep, Counted.of_insert hk rfl rfl, rfl, rfl, fun _ => Os.pwrite_ino _ _ _ _ _ _⟩
    · simp [hoff] at hcons

/-- Every delete breaks the counts or the free lists. -/
theorem RefsExact.not_del {x y : Store K P × (K → ℕ)} (h : RefsExact x) {key : K} {o : Outcome}
    (ho : o.Succeeds) (hs : countedStep whd x (.del key o) = some y)
    (hR : DelExact x (.del key o) y) : ¬RefsExact y := by
  obtain ⟨s, refs⟩ := x
  intro hy
  obtain ⟨hsome, heq⟩ := h key
  cases hk : s.db key with
  | some bd =>
    -- a key that is present is left as it is
    rw [countedStep, step, delChunk_present ho.dbGet hk] at hs
    obtain rfl : (s, update refs key (refs key - 1)) = y := by simpa [StoreOp.count] using hs
    have hpos : 0 < refs key := by simpa [hk] using hsome
    have hbefore : bd.refCount = refs key := heq bd hk
    have hafter := (hy key).2 bd hk
    simp only [update_self] at hafter
    omega
  | none =>
    have hzero : refs key = 0 := by simpa [hk] using hsome
    obtain ⟨-, hfcls, -⟩ := hR.1 hzero
    rw [countedStep, step, delChunk_absent ho.dbGet ho.dbDel hk] at hs
    simp only [Option.map_map, Option.map_eq_some_iff, Function.comp_apply] at hs
    obtain ⟨⟨fcl, r⟩, hadd, rfl⟩ := hs
    have hcur := FreeChunkList.addFreeChunk_current hadd
    have hsame := congrFun hfcls 0
    simp only [ChunkFileInfo.setFcl_fcls, if_true] at hsame
    rw [hsame] at hcur
    omega

/-- From an empty database, with empty free lists, the counts are exact throughout a run if
and only if the run deletes nothing. -/
theorem refCounts_exact_iff (whd : WriteHashDb K) {s : Store K P} (hdb : ∀ k, s.db k = none)
    (hlists : ∀ i < s.cfi.files, (s.cfi.fcls i).Ok ∧ (s.cfi.fcls i).stack = [])
    (hopen : ∀ i < s.cfi.files, ∃ n, s.os.ino (s.cfi.fds i) = some n) {ops : List (StoreOp K)}
    (hA : Runs.Each (countedStep whd) CountSucceeding (s, fun _ => 0) ops) :
    Runs.Always (countedStep whd) RefsExact DelExact (s, fun _ => 0) ops ↔
      ∀ op ∈ ops, op.IsPut := by
  refine Runs.always_iff_forall_mem (I := Unfreed) (fun _ h => h.exact) ?_ ?_
    ⟨hlists, hopen, fun k => by simp [hdb k]⟩ hA
  · intro x op h hA hput
    cases op with
    | put key block o =>
      obtain ⟨y, hy, hy'⟩ := h.put whd hA
      exact ⟨y, hy, trivial, hy'⟩
    | del key o => exact hput.elim
  · intro x op y h hA hs hR hy
    cases op with
    | put key block o => trivial
    | del key o => exact h.exact.not_del hA hs hR hy

/-- Two puts of one key count two references. -/
theorem refCounts_exact_put_put :
    Runs.Always (countedStep (.insert ℕ)) RefsExact DelExact
      ((empty 1, fun _ => 0) : Store ℕ ℕ × (ℕ → ℕ))
      [.put 7 (fillBlock 1) {}, .put 7 (fillBlock 1) {}] := by
  have hput : (countedStep (.insert ℕ) ((empty 1, fun _ => 0) : Store ℕ ℕ × (ℕ → ℕ))
      (.put 7 (fillBlock 1) {})).map (fun x => x.1.db 7) = some (some ⟨0, 1, 0⟩) := by
    decide +kernel
  refine (refCounts_exact_iff (.insert ℕ) (fun _ => rfl) ?_ ?_ ?_).2 ?_
  · exact fun _ _ => ⟨FreeChunkList.ok_empty, rfl⟩
  · exact fun i hi => ⟨i, empty_ino hi⟩
  · refine ⟨⟨Outcome.succeeds_default, fun _ => by decide, by simp [empty]⟩, fun x hx => ?_⟩
    have hdb : x.1.db 7 = some ⟨0, 1, 0⟩ := by simpa [hx] using hput
    refine ⟨⟨Outcome.succeeds_default, by simp [hdb], fun bd hbd => ?_⟩, fun _ _ => trivial⟩
    obtain rfl : _ = bd := by simpa [hdb] using hbd
    decide
  · simp [StoreOp.IsPut]

/-- A put and a delete of one key : the key has no reference left and is still present. -/
theorem refCounts_counterexample :
    Runs.Each (countedStep (.insert ℕ)) CountSucceeding
      ((empty 1, fun _ => 0) : Store ℕ ℕ × (ℕ → ℕ)) [.put 7 (fillBlock 1) {}, .del 7 {}] ∧
    (Runs.exec (countedStep (.insert ℕ)) ((empty 1, fun _ => 0) : Store ℕ ℕ × (ℕ → ℕ))
      [.put 7 (fillBlock 1) {}, .del 7 {}]).map (fun x => (x.1.db 7, x.2 7)) =
        some (some ⟨0, 1, 0⟩, 0) ∧
    ¬Runs.Always (countedStep (.insert ℕ)) RefsExact DelExact
      ((empty 1, fun _ => 0) : Store ℕ ℕ × (ℕ → ℕ)) [.put 7 (fillBlock 1) {}, .del 7 {}] := by
  have hrun : (Runs.exec (countedStep (.insert ℕ)) ((empty 1, fun _ => 0) : Store ℕ ℕ × (ℕ → ℕ))
      [.put 7 (fillBlock 1) {}, .del 7 {}]).map (fun x => (x.1.db 7, x.2 7)) =
        some (some ⟨0, 1, 0⟩, 0) := by
    decide +kernel
  refine ⟨⟨⟨Outcome.succeeds_default, fun _ => by decide, by simp [empty]⟩,
    fun _ _ => ⟨Outcome.succeeds_default, fun _ _ => trivial⟩⟩, hrun, fun h => ?_⟩
  obtain ⟨x, hx, hexact⟩ := h.exec
  rw [hx, Option.map_some, Option.some.injEq, Prod.mk.injEq] at hrun
  have := (hexact 7).1
  simp [hrun] at this

end Store

end Agilefs
