import Agilefs.FreeListStack

/-!
# Pushes that get no page

Runs of `add_free_chunk` and `get_first_free_chunk` where every `malloc` may fail. A push that
opens a page advances `current` and `total_cnt` before it asks for the memory, and leaves them
when there is none : `call_after_noPage` says that the next call, whichever it is, goes through
the missing page.

`runs_intact_iff` : a run leaves the list as it was at each failed push if and only if no push
that opens a page fails to get it.
-/

namespace Agilefs

namespace FreeChunkList

namespace FailedPush

/-- One call, with what its `malloc` returns. -/
def call (f : FreeChunkList) : ListOp × Option Page → Option (FreeChunkList × ℤ)
  | (.get, _) => f.getFirstFreeChunk
  | (.add offset, malloc) => f.addFreeChunk offset malloc

/-- The list after a call. -/
def step (f : FreeChunkList) (e : ListOp × Option Page) : Option FreeChunkList :=
  (call f e).map Prod.fst

/-- A push that can succeed keeps at most `2 ^ 20` entries. -/
def Fits (f : FreeChunkList) : ListOp × Option Page → Prop
  | (.get, _) => True
  | (.add _, malloc) => malloc.isSome → f.stack.length < 2 ^ 20

/-- A push that returns `-1` leaves the list as it was. -/
def Intact (f : FreeChunkList) : ListOp × Option Page → FreeChunkList → Prop
  | (.get, _), _ => True
  | (.add offset, malloc), f' => call f (.add offset, malloc) = some (f', -1) → f' = f

/-- A push has room on the last page, or gets another one. -/
def GetsPage (f : FreeChunkList) : ListOp × Option Page → Prop
  | (.get, _) => True
  | (.add _, malloc) => f.current + 1 < f.totalCnt ∨ malloc.isSome

variable {f f' : FreeChunkList}

/-- A push with room on the last page allocates nothing. -/
theorem addFreeChunk_of_room (h : f.current + 1 < f.totalCnt) (offset : ℤ)
    (malloc malloc' : Option Page) :
    f.addFreeChunk offset malloc = f.addFreeChunk offset malloc' := by
  have hroom : ¬f.current + 1 ≥ f.totalCnt := not_le.2 h
  simp only [addFreeChunk, if_neg hroom]

/-- A push that gets no page returns `-1` with its counters advanced. -/
theorem addFreeChunk_noPage (h : f.totalCnt ≤ f.current + 1) (offset : ℤ) :
    f.addFreeChunk offset none =
      some ({ f with current := f.current + 1, totalCnt := f.totalCnt + 1024 }, -1) := by
  simp only [addFreeChunk, ge_iff_le, if_pos h]

/-- A push that has its page succeeds. -/
theorem addFreeChunk_getsPage (h : f.Ok) {offset : ℤ} {malloc : Option Page}
    (hfits : Fits f (.add offset, malloc)) (hpage : GetsPage f (.add offset, malloc)) :
    ∃ f', f.addFreeChunk offset malloc = some (f', 0) ∧ f'.Ok := by
  rcases hpage with hroom | hsome
  · have hlen : f.stack.length < 2 ^ 20 := by
      have htotal := h.total_le
      have hle := h.le_current
      rw [length_stack]
      omega
    obtain ⟨f', hadd, hok, -⟩ := addFreeChunk_ok h hlen offset fun _ => 0
    exact ⟨f', by rw [addFreeChunk_of_room hroom offset malloc, hadd], hok⟩
  · obtain ⟨p, rfl⟩ := Option.isSome_iff_exists.1 hsome
    obtain ⟨f', hadd, hok, -⟩ := addFreeChunk_ok h (hfits rfl) offset p
    exact ⟨f', hadd, hok⟩

/-- The page after the last one is missing. -/
theorem base_of_pageIndex (h : f.Compact) {i : ℤ} {q : Fin 1024} (hi : f.totalCnt ≤ i)
    (hq : pageIndex i = some q) : f.base q = none := by
  have hmod := h.total_mod
  refine h.null q ?_
  unfold pageIndex at hq
  split_ifs at hq
  rw [Option.some.injEq] at hq
  subst hq
  simp only
  omega

theorem noPage_of_failed {offset : ℤ} (hadd : call f (.add offset, none) = some (f', -1)) :
    f.totalCnt ≤ f.current + 1 ∧
      f' = { f with current := f.current + 1, totalCnt := f.totalCnt + 1024 } := by
  rw [call] at hadd
  by_cases hfull : f.totalCnt ≤ f.current + 1
  · rw [addFreeChunk_noPage hfull, Option.some.injEq, Prod.mk.injEq] at hadd
    exact ⟨hfull, hadd.1.symm⟩
  · -- with room a push never returns `-1`
    simp only [addFreeChunk, ge_iff_le, if_neg hfull, bind, Option.bind_eq_some_iff,
      Option.some.injEq, Prod.mk.injEq] at hadd
    obtain ⟨-, -, -, hret⟩ := hadd
    cases hret

/-- After a push that got no page, a pop reads and a push writes through the missing page. -/
theorem call_after_noPage (h : f.Compact) {offset : ℤ}
    (hadd : call f (.add offset, none) = some (f', -1)) (e : ListOp × Option Page) :
    call f' e = none := by
  obtain ⟨hfull, rfl⟩ := noPage_of_failed hadd
  have hle := h.le_current
  have hmissing : ∀ i : ℤ, f.totalCnt ≤ i → ∀ q, pageIndex i = some q → f.base q = none :=
    fun i hi q hq => base_of_pageIndex h hi hq
  obtain ⟨op, malloc⟩ := e
  cases op with
  | get =>
    have hne : f.current + 1 ≠ -1 := by omega
    rw [call, getFirstFreeChunk, if_neg hne, Option.map_eq_none_iff, freeList,
      Option.bind_eq_none_iff]
    intro q hq
    rw [hmissing _ hfull q hq]
    rfl
  | add offset' =>
    have hroom : ¬f.current + 1 + 1 ≥ f.totalCnt + 1024 := by
      have hlt := h.current_lt
      omega
    have hset : ({ f with current := f.current + 1 + 1, totalCnt := f.totalCnt + 1024 } :
        FreeChunkList).setFreeList (f.current + 1 + 1) (UInt32.ofInt offset') = none := by
      rw [setFreeList, Option.bind_eq_none_iff]
      intro q hq
      simp only
      rw [hmissing _ (by omega) q hq]
      rfl
    simp only [call, addFreeChunk, if_neg hroom, hset]
    rfl

/-! ## Runs -/

theorem step_getsPage (h : f.Ok) {e : ListOp × Option Page} (hfits : Fits f e)
    (hpage : GetsPage f e) : ∃ f', step f e = some f' ∧ Intact f e f' ∧ f'.Ok := by
  obtain ⟨op, malloc⟩ := e
  cases op with
  | get =>
    cases hs : f.stack with
    | nil => exact ⟨f, by rw [step, call, getFirstFreeChunk_nil h hs]; rfl, trivial, h⟩
    | cons e es =>
      obtain ⟨f', hget, hok, -⟩ := getFirstFreeChunk_cons h hs
      exact ⟨f', by rw [step, call, hget]; rfl, trivial, hok⟩
  | add offset =>
    obtain ⟨f', hadd, hok⟩ := addFreeChunk_getsPage h hfits hpage
    refine ⟨f', by rw [step, call, hadd]; rfl, fun hfail => ?_, hok⟩
    rw [call, hadd] at hfail
    simp at hfail

theorem getsPage_of_intact {e : ListOp × Option Page} (hstep : step f e = some f')
    (h : Intact f e f') : GetsPage f e := by
  obtain ⟨op, malloc⟩ := e
  cases op with
  | get => trivial
  | add offset =>
    rw [GetsPage, or_iff_not_imp_left, not_lt]
    intro hfull
    cases malloc with
    | some p => rfl
    | none =>
      rw [step, call, addFreeChunk_noPage hfull, Option.map_some, Option.some.injEq] at hstep
      have hkept := congrArg current (h (by rw [call, addFreeChunk_noPage hfull, ← hstep]))
      rw [← hstep] at hkept
      simp at hkept

/-- A run of calls leaves the list as it was at each failed push, and finds every page it needs,
if and only if each push has room on the last page or gets another one. -/
theorem runs_intact_iff {f : FreeChunkList} (h : f.Ok) {calls : List (ListOp × Option Page)}
    (hfits : Runs.Each step Fits f calls) :
    Runs.Always step Ok Intact f calls ↔ Runs.Each step GetsPage f calls :=
  Runs.always_iff_each (I := Ok) (fun _ hok => hok) (fun _ _ hok hA hC => step_getsPage hok hA hC)
    (fun _ _ _ _ _ hstep hR _ => getsPage_of_intact hstep hR) h hfits

/-- A push with a page, a pop, and a push that needs none. -/
theorem runs_intact_empty :
    Runs.Always step Ok Intact empty [(.add 7, some fun _ => 0), (.get, none), (.add 8, none)] ↔
      Runs.Each step GetsPage empty [(.add 7, some fun _ => 0), (.get, none), (.add 8, none)] :=
  runs_intact_iff ok_empty
    ⟨fun _ => by decide, fun _ _ => ⟨trivial, fun _ _ => ⟨nofun, fun _ _ => trivial⟩⟩⟩

/-- A push onto the empty list without memory for its page : the list is not as it was, and the
pop after it reads through the missing page. -/
theorem intact_counterexample :
    ¬Runs.Always step Ok Intact empty [(.add 7, none)] ∧
      Runs.exec step empty [(.add 7, none), (.get, none)] = none := by
  have hadd : call empty (.add 7, none) = some (⟨1024, 0, fun _ => none⟩, -1) := rfl
  refine ⟨?_, ?_⟩
  · rintro ⟨-, f', hstep, hintact, -⟩
    rw [step, hadd, Option.map_some, Option.some.injEq] at hstep
    have hkept := congrArg current (hintact (hstep ▸ hadd))
    rw [← hstep] at hkept
    cases hkept
  · rfl

end FailedPush

end FreeChunkList

end Agilefs
