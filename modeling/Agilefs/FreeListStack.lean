import Agilefs.FreeListLoad
import Agilefs.Runs
import Mathlib.Data.Fintype.Fin

/-!
# The free list refines a stack

A stack of integers (`stackCall`) is what the free list is for. `FreeChunkList.call` refines
it on every list a server can have (`Produced`) : one loaded with no file, or from a file that
`flush_free_chunk` wrote of such a list after any calls on it. `stack_refines` adds what
holds of the pages along the way : their number is `total_cnt` divided by 1024, a call finds
the page it needs, and a push allocates a page only where there is none.
-/

namespace Agilefs

open CInt Posix Function

namespace FreeChunkList

/-! ## The stack -/

/-- A call on a stack of integers. -/
def stackCall : List ℤ → ListOp → List ℤ × ℤ
  | [], .get => ([], -1)
  | x :: xs, .get => (xs, x)
  | xs, .add offset => (offset :: xs, 0)

/-- The call keeps at most `2 ^ 20` entries, and its argument is an `int`. -/
def CallFits (xs : List ℤ) : ListOp → Prop
  | .get => True
  | .add offset => xs.length < 2 ^ 20 ∧ -2 ^ 31 ≤ offset ∧ offset < 2 ^ 31

/-- The entries in use as `int`s, the last one first. -/
def ints (f : FreeChunkList) : List ℤ := f.stack.map fun e => int32 e.toNat

theorem ints_eq_nil_iff {f : FreeChunkList} : f.ints = [] ↔ f.stack = [] := by
  simp [ints]

theorem int32_ofInt {x : ℤ} (h₁ : -2 ^ 31 ≤ x) (h₂ : x < 2 ^ 31) :
    int32 (UInt32.ofInt x).toNat = x := by
  have hcast : ((UInt32.ofInt x).toNat : ℤ) = x % 2 ^ 32 := by
    rw [UInt32.ofInt, UInt32.toNat_ofNat']
    omega
  rw [hcast, int32, Int.bmod]
  omega

/-! ## Calls -/

/-- One call, with the page its `malloc` returns. -/
def call (f : FreeChunkList) : ListOp × Page → Option (FreeChunkList × ℤ)
  | (.get, _) => f.getFirstFreeChunk
  | (.add offset, p) => f.addFreeChunk offset (some p)

/-- A push on `f` allocates page `q`. -/
def Allocates (f : FreeChunkList) (q : Fin 1024) : Prop :=
  f.totalCnt ≤ f.current + 1 ∧ pageIndex (f.current + 1) = some q

/-- The number of pages. -/
def allocated (f : FreeChunkList) : ℕ :=
  (Finset.univ.filter fun q => (f.base q).isSome).card

/-- The pages below `totalCnt` are allocated, and no others. -/
structure Compact (f : FreeChunkList) : Prop extends f.Ok where
  null : ∀ q : Fin 1024, f.totalCnt ≤ (q : ℤ) * 1024 → f.base q = none

variable {f f' : FreeChunkList}

theorem Compact.allocated_eq (h : f.Compact) : f.totalCnt = 1024 * f.allocated := by
  have hmod := h.total_mod
  have hle := h.total_le
  have hpos : 0 ≤ f.totalCnt := by
    have := h.le_current
    have := h.current_lt
    omega
  obtain ⟨k, hk⟩ : ∃ k : ℕ, f.totalCnt = 1024 * k := ⟨(f.totalCnt / 1024).toNat, by omega⟩
  have hfilter : (Finset.univ.filter fun q => (f.base q).isSome) =
      Finset.univ.filter fun q : Fin 1024 => (q : ℕ) < k := by
    refine Finset.filter_congr fun q _ => ⟨fun hq => ?_, fun hq => h.pages q (by omega)⟩
    by_contra hge
    rw [h.null q (by omega)] at hq
    cases hq
  rw [allocated, hfilter, Fin.card_filter_val_lt, hk]
  omega

/-- A push allocates a page only where there is none. -/
theorem Compact.base_of_allocates (h : f.Compact) {q : Fin 1024} (hq : f.Allocates q) :
    f.base q = none := by
  refine h.null q ?_
  obtain ⟨htot, hidx⟩ := hq
  have hmod := h.total_mod
  have hlt := h.current_lt
  unfold pageIndex at hidx
  split_ifs at hidx
  rw [Option.some.injEq] at hidx
  subst hidx
  simp only
  omega

/-- What a call does to the pages there are : none is replaced, and only the entry pushed is
written. -/
def KeepsPages (f f' : FreeChunkList) : ListOp → Prop
  | .get => f'.base = f.base
  | .add offset => ∀ q p, f.base q = some p → f'.base q = some p ∨
      pageIndex (f.current + 1) = some q ∧
        f'.base q = some (update p (entryIndex (f.current + 1)) (UInt32.ofInt offset))

/-- Where a push stores its entry, and what it does to the number of entries. -/
theorem addFreeChunk_base {offset r : ℤ} {p : Page}
    (h : f.addFreeChunk offset (some p) = some (f', r)) :
    ∃ q p₀, pageIndex (f.current + 1) = some q ∧
      f'.base = update f.base q
        (some (update p₀ (entryIndex (f.current + 1)) (UInt32.ofInt offset))) ∧
      ((f.totalCnt ≤ f.current + 1 ∧ f'.totalCnt = f.totalCnt + 1024) ∨
        (f.current + 1 < f.totalCnt ∧ f.base q = some p₀ ∧ f'.totalCnt = f.totalCnt)) := by
  by_cases hfull : f.totalCnt ≤ f.current + 1
  · simp only [addFreeChunk, ge_iff_le, if_pos hfull, bind, Option.bind_eq_some_iff,
      Option.some.injEq, Prod.mk.injEq] at h
    obtain ⟨g, hg, g', hg', rfl, -⟩ := h
    obtain ⟨q, hq, rfl⟩ := Option.map_eq_some_iff.1 hg
    refine ⟨q, p, hq, ?_⟩
    simp only [setFreeList, hq, Option.bind_some, update_self, Option.map_some,
      Option.some.injEq, update_idem] at hg'
    rw [← hg']
    exact ⟨rfl, Or.inl ⟨hfull, rfl⟩⟩
  · simp only [addFreeChunk, ge_iff_le, if_neg hfull, bind, Option.bind_eq_some_iff,
      Option.some.injEq, Prod.mk.injEq] at h
    obtain ⟨g, hg, rfl, -⟩ := h
    obtain ⟨q, hq, hrest⟩ := Option.bind_eq_some_iff.1 hg
    obtain ⟨p₀, hp₀, rfl⟩ := Option.map_eq_some_iff.1 hrest
    exact ⟨q, p₀, hq, rfl, Or.inr ⟨not_le.1 hfull, hp₀, rfl⟩⟩

theorem Compact.of_addFreeChunk (h : f.Compact) (hok : f'.Ok) {offset r : ℤ} {p : Page}
    (hadd : f.addFreeChunk offset (some p) = some (f', r)) :
    f'.Compact ∧ KeepsPages f f' (.add offset) := by
  obtain ⟨q, p₀, hq, hbase, hcases⟩ := addFreeChunk_base hadd
  have hqv : (q : ℤ) = (f.current + 1) / 1024 := by
    unfold pageIndex at hq
    split_ifs at hq
    rw [Option.some.injEq] at hq
    subst hq
    simp only
    omega
  refine ⟨⟨hok, fun r hr => ?_⟩, fun r p' hr => ?_⟩
  · have hlt := h.current_lt
    have hmod := h.total_mod
    have hrq : r ≠ q := by
      rintro rfl
      rcases hcases with ⟨hfull, htot⟩ | ⟨hroom, -, htot⟩ <;> omega
    rw [hbase, update_of_ne hrq]
    exact h.null r (by rcases hcases with ⟨-, htot⟩ | ⟨-, -, htot⟩ <;> omega)
  · rw [hbase]
    by_cases hrq : r = q
    · subst hrq
      rcases hcases with ⟨hfull, -⟩ | ⟨-, hp₀, -⟩
      · rw [h.base_of_allocates ⟨hfull, hq⟩] at hr
        cases hr
      · obtain rfl : p₀ = p' := by simpa [hp₀] using hr
        exact Or.inr ⟨hq, update_self _ _ _⟩
    · exact Or.inl (by rw [update_of_ne hrq, hr])

/-- A call does what it does on the stack of the entries, and keeps the pages there are. -/
theorem Compact.call (h : f.Compact) {op : ListOp} (hfits : CallFits f.ints op) (p : Page) :
    ∃ f' r, f.call (op, p) = some (f', r) ∧ stackCall f.ints op = (f'.ints, r) ∧ f'.Compact ∧
      KeepsPages f f' op ∧ (op = .get → f.ints = [] → f' = f ∧ r = -1) := by
  cases op with
  | get =>
    cases hs : f.stack with
    | nil =>
      refine ⟨f, -1, getFirstFreeChunk_nil h.toOk hs, ?_, h, rfl, fun _ _ => ⟨rfl, rfl⟩⟩
      simp [ints, hs, stackCall]
    | cons e es =>
      obtain ⟨f', hget, hok, hst⟩ := getFirstFreeChunk_cons h.toOk hs
      have hpop : f' = { f with current := f.current - 1 } := by
        rcases getFirstFreeChunk_cases hget with ⟨hcur, -, -⟩ | ⟨-, e', -, hf', -⟩
        · rw [(stack_eq_nil_iff h.toOk).2 hcur] at hs
          cases hs
        · exact hf'
      refine ⟨f', _, hget, by simp [ints, hs, hst, stackCall], ⟨hok, ?_⟩, by rw [hpop]; rfl,
        fun _ hnil => by simp [ints, hs] at hnil⟩
      rw [hpop]
      exact h.null
  | add offset =>
    obtain ⟨hlen, h₁, h₂⟩ := hfits
    obtain ⟨f', hadd, hok, hst⟩ := addFreeChunk_ok h.toOk (by simpa [ints] using hlen) offset p
    obtain ⟨hcompact, hkeeps⟩ := h.of_addFreeChunk hok hadd
    refine ⟨f', 0, hadd, ?_, hcompact, hkeeps, fun hop => by cases hop⟩
    simp [ints, hst, stackCall, int32_ofInt h₁ h₂]

/-- A call that stays inside the table keeps the list compact, whatever its argument. -/
theorem Compact.of_call (h : f.Compact) {c : ListOp × Page} {r : ℤ}
    (hc : f.call c = some (f', r)) : f'.Compact := by
  obtain ⟨op, p⟩ := c
  cases op with
  | get =>
    obtain ⟨g, r', hget, -, hg, -⟩ := Compact.call h (show CallFits f.ints .get from trivial) p
    change f.getFirstFreeChunk = some (g, r') at hget
    obtain ⟨rfl, -⟩ : g = f' ∧ r' = r := by
      simpa [FreeChunkList.call, hget] using hc
    exact hg
  | add offset =>
    rcases Nat.lt_or_ge f.stack.length (2 ^ 20) with hlt | hge
    · obtain ⟨g, hadd, hok, -⟩ := addFreeChunk_ok h.toOk hlt offset p
      obtain ⟨rfl, -⟩ : g = f' ∧ 0 = r := by
        simpa [FreeChunkList.call, hadd] using hc
      exact (h.of_addFreeChunk hok hadd).1
    · simp [FreeChunkList.call, addFreeChunk_full h.toOk hge] at hc

/-! ## The lists a server has -/

/-- A list is loaded with no file, or from a file that `flush_free_chunk` wrote of such a list
after calls on it. -/
inductive Produced (P : Type*) [DecidableEq P] : FreeChunkList → Prop
  | noFile {os os' : Os P} {malloc : ℕ → Page} {path : P} {f : FreeChunkList}
      (hpath : os.access path = false)
      (hinit : initFreeChunk os malloc path = some (os', f, 0)) : Produced P f
  | flushed {f₀ f f₁ g : FreeChunkList} (h₀ : Produced P f₀) {cs : List (ListOp × Page)}
      {rs : List ℤ} (hcalls : Runs.trace call f₀ cs = some (f, rs)) {paths : List P}
      {os os₁ os₂ os₃ : Os P} (hs : os.Sited paths) {path : P} (hp : path ∈ paths)
      (hflush : flushFreeChunk os f path = some (os₁, f₁, 0)) (hs₂ : os₂.Sane)
      (hfile : os₂.fileAt path = os₁.fileAt path) {malloc : ℕ → Page}
      (hinit : initFreeChunk os₂ malloc path = some (os₃, g, 0)) : Produced P g

variable {P : Type*} [DecidableEq P]

omit [DecidableEq P] in
/-- What is loaded from a file has no pages beyond `totalCnt`. -/
theorem null_of_initFreeChunk {os os' : Os P} {malloc : ℕ → Page} {path : P} {r : ℤ}
    (h : initFreeChunk os malloc path = some (os', f, r)) :
    ∀ q : Fin 1024, f.totalCnt ≤ (q : ℤ) * 1024 → f.base q = none := by
  rw [← initFreeChunkWith_some] at h
  have hload : LoadedWith (fun i => some (malloc i)) f := by
    cases hat : os.fileAt path with
    | none =>
      obtain ⟨os₁, heq⟩ := initFreeChunkWith_noFile hat fun i => some (malloc i)
      rw [heq, Option.some.injEq, Prod.mk.injEq, Prod.mk.injEq] at h
      exact h.2.1 ▸ loadedWith_empty _
    | some x =>
      obtain ⟨os₁, heq⟩ := initFreeChunkWith_file (n := x.1) (c := x.2) hat
        fun i => some (malloc i)
      rw [heq] at h
      obtain ⟨⟨os₂, f₂⟩, hrun, hres⟩ := Option.map_eq_some_iff.1 h
      simp only [Prod.mk.injEq] at hres
      exact hres.2.1 ▸ (LoadedWith.of_readPagesWith hrun).1
  intro q hq
  have hbase := (hload.base q).not.2 fun hlt => by omega
  simpa using hbase

theorem Produced.compact (h : Produced P f) : f.Compact := by
  induction h with
  | noFile hpath hinit =>
    refine ⟨?_, null_of_initFreeChunk hinit⟩
    simp only [initFreeChunk, initFreeChunkIf, hpath, Bool.false_eq_true, if_false,
      Option.some.injEq, Prod.mk.injEq] at hinit
    rw [← hinit.2.1]
    exact ok_empty
  | flushed h₀ hcalls hs hp hflush hs₂ hfile hinit ih =>
    have hf := Runs.trace_invariant (fun _ _ _ _ hI hc => Compact.of_call hI hc) ih hcalls
    obtain ⟨os', f', n, hflush', -, hat, -⟩ := flushFreeChunk_spec hs hp hf.toOk
    rw [hflush, Option.some.injEq, Prod.mk.injEq] at hflush'
    rw [← hflush'.1, ← hfile] at hat
    obtain ⟨os'', g, hload, -, hok, -⟩ := initFreeChunk_spec hs₂ hf.toOk hat _
    rw [hinit, Option.some.injEq, Prod.mk.injEq, Prod.mk.injEq] at hload
    exact ⟨hload.2.1 ▸ hok, null_of_initFreeChunk hinit⟩

/-- Loading what was flushed brings the entries back. -/
theorem ints_of_flushed {g : FreeChunkList} (hf : f.Ok) {paths : List P}
    {os os₁ os₂ os₃ : Os P} (hs : os.Sited paths) {path : P} (hp : path ∈ paths)
    {f₁ : FreeChunkList} (hflush : flushFreeChunk os f path = some (os₁, f₁, 0))
    (hs₂ : os₂.Sane) (hfile : os₂.fileAt path = os₁.fileAt path) {malloc : ℕ → Page}
    (hinit : initFreeChunk os₂ malloc path = some (os₃, g, 0)) : g.ints = f.ints := by
  obtain ⟨os', f', n, hflush', -, hat, -⟩ := flushFreeChunk_spec hs hp hf
  rw [hflush, Option.some.injEq, Prod.mk.injEq] at hflush'
  rw [← hflush'.1, ← hfile] at hat
  obtain ⟨os'', g', hload, -, -, hst⟩ := initFreeChunk_spec hs₂ hf hat malloc
  rw [hinit, Option.some.injEq, Prod.mk.injEq, Prod.mk.injEq] at hload
  rw [ints, ints, hload.2.1, hst]

/-! ## Refinement -/

/-- Every call whose state and argument fit does what the stack does, and keeps its pages. -/
theorem stack_refines (h : Produced P f) {evs : List (ListOp × Page)}
    (hfits : Runs.Each (fun xs e => some (stackCall xs e.1).1) (fun xs e => CallFits xs e.1)
      f.ints evs) :
    ∃ f' rs, Runs.trace call f evs = some (f', rs) ∧
      Runs.trace (fun xs e => some (stackCall xs e.1)) f.ints evs = some (f'.ints, rs) ∧
      f'.totalCnt = 1024 * f'.allocated ∧ -1 ≤ f'.current ∧ f'.current < f'.totalCnt ∧
      ∀ op p, CallFits f'.ints op →
        (∃ f'' r, f'.call (op, p) = some (f'', r) ∧ stackCall f'.ints op = (f''.ints, r) ∧
          KeepsPages f' f'' op ∧ (op = .get → f'.ints = [] → f'' = f' ∧ r = -1)) ∧
        ∀ q, f'.Allocates q → f'.base q = none := by
  have hsim : ∀ (g : FreeChunkList) (e : ListOp × Page), g.Compact → CallFits g.ints e.1 →
      ∃ g' r, g.call e = some (g', r) ∧ some (stackCall g.ints e.1) = some (g'.ints, r) ∧
        g'.Compact := by
    intro g e hg he
    obtain ⟨g', r, hcall, hstack, hg', -⟩ := hg.call he e.2
    exact ⟨g', r, hcall, congrArg some hstack, hg'⟩
  obtain ⟨f', rs, hrun, hspec, hf'⟩ := @Runs.trace_of_simulates _ _ _ _ call ints
    (fun xs e => some (stackCall xs e.1)) Compact (fun xs e => CallFits xs e.1) hsim _ _
    h.compact hfits
  refine ⟨f', rs, hrun, hspec, hf'.allocated_eq, hf'.le_current, hf'.current_lt,
    fun op p hop => ⟨?_, fun q hq => hf'.base_of_allocates hq⟩⟩
  obtain ⟨f'', r, hcall, hstack, -, hkeeps, hnil⟩ := hf'.call hop p
  exact ⟨f'', r, hcall, hstack, hkeeps, hnil⟩

/-- A list loaded with no file : a push, two pops and a push. -/
theorem stack_refines_empty : ∃ f' rs,
    Runs.trace call empty [(.add 7, fun _ => 0), (.get, fun _ => 0), (.get, fun _ => 0),
      (.add (-3), fun _ => 0)] = some (f', rs) ∧
    Runs.trace (fun xs e => some (stackCall xs e.1)) [] [(.add 7, fun _ => 0),
      (.get, fun _ => 0), (.get, fun _ => 0), (.add (-3), (fun _ => 0 : Page))] =
        some (f'.ints, rs) ∧
    f'.totalCnt = 1024 * f'.allocated := by
  let os : Os ℕ := ⟨fun _ => none, fun _ => [], 0, fun _ => none, 0⟩
  have hinit : initFreeChunk os (fun _ _ => 0) 0 = some (os, empty, 0) := rfl
  have hfits : Runs.Each (fun xs e => some (stackCall xs e.1).1) (fun xs e => CallFits xs e.1)
      empty.ints [(.add 7, fun _ => 0), (.get, fun _ => 0), (.get, fun _ => 0),
        (.add (-3), (fun _ => 0 : Page))] := by
    simp [Runs.Each, stackCall, CallFits, ints_eq_nil_iff.2 stack_empty]
  obtain ⟨f', rs, hrun, hspec, htot, -⟩ := stack_refines (Produced.noFile rfl hinit) hfits
  exact ⟨f', rs, hrun, hspec, htot⟩

end FreeChunkList

end Agilefs
