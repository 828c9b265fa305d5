import Agilefs.ByteFile
import Mathlib.Logic.Function.Basic

/-!
# The free-chunk list

`struct free_chunk_list` of `server/chunks.c` : a table of up to 1024 pages of 1024
unsigned entries, allocated one page at a time, a count `totalCnt` of the entries the
pages hold, and the index `current` of the last entry in use, `-1` if there is none. An
access through a missing page or beyond the table has no meaning in C and is `none` here.

`FreeChunkList.Ok` is the representation invariant. Under it the entries in use are a
stack (`stack`, top first) : `getFirstFreeChunk` pops it, and `addFreeChunk` pushes onto
it while it holds fewer than `2 ^ 20` entries and runs off the table after that.
-/

namespace Agilefs

open CInt

/-- The `PER_LIST_SIZE` entries of one page. -/
abbrev Page := Fin 1024 → UInt32

/-- `struct free_chunk_list`. There are `FREE_CHUNK_MAX` page pointers; one is `none` before
its `malloc`. -/
structure FreeChunkList where
  totalCnt : ℤ
  current : ℤ
  base : Fin 1024 → Option Page

namespace FreeChunkList

/-- `i >> PER_LIST_OFFSET`, if it is the index of a page pointer. -/
def pageIndex (i : ℤ) : Option (Fin 1024) :=
  if h : 0 ≤ i / 1024 ∧ i / 1024 < 1024 then some ⟨(i / 1024).toNat, by omega⟩ else none

/-- `i & (PER_LIST_SIZE - 1)`. -/
def entryIndex (i : ℤ) : Fin 1024 :=
  ⟨(i % 1024).toNat, by omega⟩

/-- `free_list(fclp, i)` as a value. -/
def freeList (f : FreeChunkList) (i : ℤ) : Option UInt32 :=
  (pageIndex i).bind fun q => (f.base q).map fun p => p (entryIndex i)

/-- `free_list(fclp, i) = v`. -/
def setFreeList (f : FreeChunkList) (i : ℤ) (v : UInt32) : Option FreeChunkList :=
  (pageIndex i).bind fun q => (f.base q).map fun p =>
    { f with base := Function.update f.base q (some (Function.update p (entryIndex i) v)) }

/-- `fclp->base[i >> PER_LIST_OFFSET] = p`. -/
def setPage (f : FreeChunkList) (i : ℤ) (p : Page) : Option FreeChunkList :=
  (pageIndex i).map fun q => { f with base := Function.update f.base q (some p) }

/-- `get_first_free_chunk`. The unsigned entry is returned as an `int`. -/
def getFirstFreeChunk (f : FreeChunkList) : Option (FreeChunkList × ℤ) :=
  if f.current = -1 then some (f, -1)
  else (f.freeList f.current).map fun e =>
    ({ f with current := f.current - 1 }, int32 e.toNat)

/-- `add_free_chunk`. `malloc` is the page a `malloc` in this call returns, `none` if it
fails. -/
def addFreeChunk (f : FreeChunkList) (offset : ℤ) (malloc : Option Page) :
    Option (FreeChunkList × ℤ) :=
  let total := f.totalCnt
  let current := f.current + 1
  let f := { f with current := current }
  if current ≥ total then
    let f := { f with totalCnt := f.totalCnt + 1024 }
    match malloc with
    | none => some (f, -1)
    | some p => do
      let f ← f.setPage current p
      let f ← f.setFreeList current (UInt32.ofInt offset)
      some (f, 0)
  else do
    let f ← f.setFreeList current (UInt32.ofInt offset)
    some (f, 0)

/-- `add_free_chunk` advances `current`, whatever else happens. -/
theorem addFreeChunk_current {f f' : FreeChunkList} {offset r : ℤ} {malloc : Option Page}
    (h : f.addFreeChunk offset malloc = some (f', r)) : f'.current = f.current + 1 := by
  have hset : ∀ {g g' : FreeChunkList} {i v}, g.setFreeList i v = some g' →
      g'.current = g.current := by
    intro g g' i v hg
    simp only [setFreeList, Option.bind_eq_some_iff, Option.map_eq_some_iff] at hg
    obtain ⟨q, -, p, -, rfl⟩ := hg
    rfl
  have hpage : ∀ {g g' : FreeChunkList} {i p}, g.setPage i p = some g' →
      g'.current = g.current := by
    intro g g' i p hg
    simp only [setPage, Option.map_eq_some_iff] at hg
    obtain ⟨q, -, rfl⟩ := hg
    rfl
  by_cases hfull : f.totalCnt ≤ f.current + 1
  · cases malloc with
    | none =>
      simp only [addFreeChunk, ge_iff_le, hfull, if_true, Option.some.injEq, Prod.mk.injEq] at h
      rw [← h.1]
    | some p =>
      simp only [addFreeChunk, ge_iff_le, hfull, if_true, bind, Option.bind_eq_some_iff,
        Option.some.injEq, Prod.mk.injEq] at h
      obtain ⟨g, hg, g', hg', rfl, -⟩ := h
      rw [hset hg', hpage hg]
  · simp only [addFreeChunk, ge_iff_le, hfull, if_false, bind, Option.bind_eq_some_iff,
      Option.some.injEq, Prod.mk.injEq] at h
    obtain ⟨g, hg, rfl, -⟩ := h
    rw [hset hg]

/-! ## The representation invariant -/

/-- The pages below `totalCnt` are allocated and hold the entries `0 … current`. -/
structure Ok (f : FreeChunkList) : Prop where
  total_mod : f.totalCnt % 1024 = 0
  total_le : f.totalCnt ≤ 2 ^ 20
  le_current : -1 ≤ f.current
  current_lt : f.current < f.totalCnt
  pages : ∀ q : Fin 1024, (q : ℤ) * 1024 < f.totalCnt → (f.base q).isSome

/-- The entry at index `i`; `0` if there is none. -/
def entry (f : FreeChunkList) (i : ℕ) : UInt32 :=
  (f.freeList i).getD 0

/-- The entries in use, the last one first. -/
def stack (f : FreeChunkList) : List UInt32 :=
  ((List.range (f.current + 1).toNat).map f.entry).reverse

@[simp] theorem length_stack (f : FreeChunkList) : f.stack.length = (f.current + 1).toNat := by
  simp [stack]

theorem stack_eq_nil_iff {f : FreeChunkList} (h : f.Ok) : f.stack = [] ↔ f.current = -1 := by
  rw [← List.length_eq_zero_iff, length_stack]
  have := h.le_current
  omega

/-- The list with no entry and no page. -/
def empty : FreeChunkList := ⟨0, -1, fun _ => none⟩

@[simp] theorem stack_empty : empty.stack = [] :=
  rfl

theorem ok_empty : empty.Ok :=
  ⟨rfl, by decide, by decide, by decide, fun q hq => by simp [empty] at hq; omega⟩

theorem pageIndex_eq {i : ℤ} (h₀ : 0 ≤ i) (h₁ : i < 2 ^ 20) :
    pageIndex i = some ⟨(i / 1024).toNat, by omega⟩ :=
  dif_pos (by omega)

/-- An entry below `totalCnt` is on an allocated page. -/
theorem Ok.exists_page {f : FreeChunkList} (h : f.Ok) {i : ℤ} (h₀ : 0 ≤ i)
    (h₁ : i < f.totalCnt) : ∃ q p, pageIndex i = some q ∧ f.base q = some p := by
  have hle := h.total_le
  have hq := pageIndex_eq h₀ (by omega : i < 2 ^ 20)
  obtain ⟨p, hp⟩ := Option.isSome_iff_exists.1 (h.pages ⟨(i / 1024).toNat, by omega⟩
    (by simp; omega))
  exact ⟨_, p, hq, hp⟩

theorem Ok.freeList_eq {f : FreeChunkList} (h : f.Ok) {i : ℕ} (hi : (i : ℤ) < f.totalCnt) :
    f.freeList i = some (f.entry i) := by
  obtain ⟨q, p, hq, hp⟩ := h.exists_page (by omega) hi
  simp [entry, freeList, hq, hp]

/-- Indices that share their page and their place in it are equal. -/
theorem index_inj {i j : ℤ} {q : Fin 1024} (hi : pageIndex i = some q)
    (hj : pageIndex j = some q) (h : entryIndex i = entryIndex j) : i = j := by
  unfold pageIndex at hi hj
  split_ifs at hi hj
  simp only [Option.some.injEq] at hi hj
  subst hi
  simp only [entryIndex, Fin.mk.injEq] at h hj
  omega

/-- What one store to an entry changes. -/
theorem setFreeList_spec {f : FreeChunkList} {i : ℤ} {v : UInt32} {q : Fin 1024}
    {p : Page} (hq : pageIndex i = some q) (hp : f.base q = some p) :
    ∃ f', f.setFreeList i v = some f' ∧ f'.totalCnt = f.totalCnt ∧ f'.current = f.current ∧
      (∀ r, (f'.base r).isSome = (f.base r).isSome) ∧
      ∀ j : ℤ, f'.freeList j = if j = i then some v else f.freeList j := by
  refine ⟨{ f with base := Function.update f.base q (some (Function.update p (entryIndex i) v)) },
    by simp [setFreeList, hq, hp], rfl, rfl, fun r => ?_, fun j => ?_⟩
  · by_cases hr : r = q
    · simp [hr, hp]
    · simp [hr]
  · unfold freeList
    cases hj : pageIndex j with
    | none =>
      rw [if_neg (by rintro rfl; simp [hj] at hq)]
      rfl
    | some r =>
      by_cases hr : r = q
      · subst hr
        by_cases hij : j = i
        · simp [hij]
        · have hne : entryIndex j ≠ entryIndex i := fun h => hij (index_inj hj hq h)
          simp [hij, hne, hp]
      · have hij : j ≠ i := by
          rintro rfl
          exact hr (by simpa [hj] using hq)
        simp [hij, hr]

/-! ## The list is a stack -/

/-- One entry more in use. -/
theorem stack_succ {f f' : FreeChunkList} (h₀ : -1 ≤ f.current) (hc : f'.current = f.current + 1)
    (he : ∀ i : ℕ, (i : ℤ) ≤ f.current → f'.entry i = f.entry i) :
    f'.stack = f'.entry (f.current + 1).toNat :: f.stack := by
  have hn : (f'.current + 1).toNat = (f.current + 1).toNat + 1 := by omega
  unfold stack
  rw [hn, List.range_succ, List.map_append, List.reverse_append]
  refine congrArg (f'.entry _ :: ·) (congrArg List.reverse ?_)
  refine List.map_congr_left fun i hi => he i ?_
  have := List.mem_range.1 hi
  omega

/-- On an empty list `get_first_free_chunk` returns `-1` and changes nothing. -/
theorem getFirstFreeChunk_nil {f : FreeChunkList} (h : f.Ok) (hs : f.stack = []) :
    f.getFirstFreeChunk = some (f, -1) :=
  if_pos ((stack_eq_nil_iff h).1 hs)

/-- On a list in use `get_first_free_chunk` pops. -/
theorem getFirstFreeChunk_cons {f : FreeChunkList} (h : f.Ok) {e : UInt32} {es : List UInt32}
    (hs : f.stack = e :: es) :
    ∃ f', f.getFirstFreeChunk = some (f', int32 e.toNat) ∧ f'.Ok ∧ f'.stack = es := by
  have hne : f.current ≠ -1 := fun hc => by
    rw [(stack_eq_nil_iff h).2 hc] at hs
    exact List.cons_ne_nil _ _ hs.symm
  have hle := h.le_current
  have hcast : ((f.current.toNat : ℕ) : ℤ) = f.current := by omega
  have hget := h.freeList_eq (i := f.current.toNat) (by have := h.current_lt; omega)
  rw [hcast] at hget
  set f' : FreeChunkList := { f with current := f.current - 1 } with hf'
  have hpop : f.stack = f.entry f.current.toNat :: f'.stack := by
    have hsucc : f.stack = f.entry (f'.current + 1).toNat :: f'.stack :=
      stack_succ (by simp [hf']; omega) (by simp [hf']) fun i _ => rfl
    simpa [hf'] using hsucc
  rw [hs, List.cons.injEq] at hpop
  refine ⟨f', ?_, ⟨h.total_mod, h.total_le, ?_, ?_, h.pages⟩, hpop.2.symm⟩
  · rw [getFirstFreeChunk, if_neg hne, hget, hpop.1]
    rfl
  · simp [hf']
    omega
  · have := h.current_lt
    simp [hf']
    omega

/-- Storing the entry after the last one in use pushes it. -/
theorem push_spec {f g : FreeChunkList} (hg : g.Ok) (hc : g.current = f.current + 1)
    (h₀ : -1 ≤ f.current) (he : ∀ i : ℕ, (i : ℤ) ≤ f.current → g.entry i = f.entry i)
    (v : UInt32) :
    ∃ f', g.setFreeList (f.current + 1) v = some f' ∧ f'.Ok ∧ f'.stack = v :: f.stack := by
  have hlt := hg.current_lt
  obtain ⟨q, p, hq, hp⟩ := hg.exists_page (i := f.current + 1) (by omega) (by omega)
  obtain ⟨f', hf', htot, hcur, hbase, hlist⟩ := setFreeList_spec (v := v) hq hp
  have hentry : ∀ i : ℕ, f'.entry i = if (i : ℤ) = f.current + 1 then v else g.entry i := by
    intro i
    unfold entry
    rw [hlist]
    split_ifs <;> rfl
  refine ⟨f', hf', ⟨htot ▸ hg.total_mod, htot ▸ hg.total_le, hcur ▸ hg.le_current, ?_, ?_⟩, ?_⟩
  · rw [hcur, htot]
    exact hlt
  · intro r hr
    rw [hbase r]
    exact hg.pages r (htot ▸ hr)
  · rw [stack_succ h₀ (hcur.trans hc) fun i hi => by rw [hentry, if_neg (by omega), he i hi],
      hentry, if_pos (by omega)]

/-- `add_free_chunk` pushes while the table has room. -/
theorem addFreeChunk_ok {f : FreeChunkList} (h : f.Ok) (hlen : f.stack.length < 2 ^ 20)
    (offset : ℤ) (p : Page) :
    ∃ f', f.addFreeChunk offset (some p) = some (f', 0) ∧ f'.Ok ∧
      f'.stack = UInt32.ofInt offset :: f.stack := by
  rw [length_stack] at hlen
  have h₀ := h.le_current
  have hlt := h.current_lt
  have hmod := h.total_mod
  by_cases hfull : f.current + 1 ≥ f.totalCnt
  · -- the last page is full, so `current + 1 = totalCnt` opens the next one
    have htot : f.totalCnt = f.current + 1 := by omega
    obtain ⟨q, hq⟩ : ∃ q, pageIndex (f.current + 1) = some q :=
      ⟨_, pageIndex_eq (by omega) (by omega)⟩
    have hqv : (q : ℤ) * 1024 = f.totalCnt := by
      rw [pageIndex_eq (by omega) (by omega), Option.some.injEq] at hq
      subst hq
      simp
      omega
    set g : FreeChunkList := ⟨f.totalCnt + 1024, f.current + 1,
      Function.update f.base q (some p)⟩ with hg
    have hgok : g.Ok := by
      refine ⟨by simp [hg]; omega, by simp [hg]; omega, by simp [hg]; omega,
        by simp [hg]; omega, fun r hr => ?_⟩
      by_cases hrq : r = q
      · simp [hg, hrq]
      · have hne : (r : ℕ) ≠ q := fun h => hrq (Fin.ext h)
        have : (r : ℤ) * 1024 < f.totalCnt := by
          simp [hg] at hr
          omega
        simpa [hg, hrq] using h.pages r this
    have hge : ∀ i : ℕ, (i : ℤ) ≤ f.current → g.entry i = f.entry i := by
      intro i hi
      have hne : (⟨((i : ℤ) / 1024).toNat, by omega⟩ : Fin 1024) ≠ q := by
        intro h
        have := congrArg Fin.val h
        simp at this
        omega
      simp [entry, freeList, pageIndex_eq (by omega : (0 : ℤ) ≤ i) (by omega), hg, hne]
    obtain ⟨f', hf', hok, hst⟩ := push_spec hgok rfl h₀ hge (UInt32.ofInt offset)
    refine ⟨f', ?_, hok, hst⟩
    simp [addFreeChunk, hfull, setPage, hq, ← hg, hf']
  · set g : FreeChunkList := { f with current := f.current + 1 } with hg
    have hgok : g.Ok := ⟨hmod, h.total_le, by simp [hg]; omega, by simp [hg]; omega, h.pages⟩
    obtain ⟨f', hf', hok, hst⟩ := push_spec hgok rfl h₀ (fun _ _ => rfl) (UInt32.ofInt offset)
    refine ⟨f', ?_, hok, hst⟩
    simp [addFreeChunk, hfull, ← hg, hf']

/-- A push onto a list of `2 ^ 20` entries runs off the page table. -/
theorem addFreeChunk_full {f : FreeChunkList} (h : f.Ok) (hlen : 2 ^ 20 ≤ f.stack.length)
    (offset : ℤ) (p : Page) : f.addFreeChunk offset (some p) = none := by
  rw [length_stack] at hlen
  have hle := h.total_le
  have hlt := h.current_lt
  have hq : pageIndex (f.current + 1) = none := dif_neg (by omega)
  simp [addFreeChunk, (by omega : f.current + 1 ≥ f.totalCnt), setPage, hq]

/-! ## The entries of any list

A `malloc` that fails leaves a page in use without memory. `Shaped` holds of such lists too. -/

/-- The entries in use fill the pages in order, and no page was allocated ahead. -/
structure Shaped (f : FreeChunkList) : Prop where
  total_mod : f.totalCnt % 1024 = 0
  le_current : -1 ≤ f.current
  current_lt : f.current < f.totalCnt
  null : ∀ q : Fin 1024, f.totalCnt ≤ (q : ℤ) * 1024 → f.base q = none

/-- `e` is an entry in use. -/
def Has (f : FreeChunkList) (e : UInt32) : Prop :=
  ∃ i : ℤ, 0 ≤ i ∧ i ≤ f.current ∧ f.freeList i = some e

theorem shaped_empty : empty.Shaped :=
  ⟨rfl, by decide, by decide, fun _ _ => rfl⟩

theorem not_has_of_current {f : FreeChunkList} (h : f.current = -1) (e : UInt32) : ¬f.Has e := by
  rintro ⟨i, h₀, hi, -⟩
  omega

theorem freeList_eq_some {f : FreeChunkList} {i : ℤ} {e : UInt32} :
    f.freeList i = some e ↔
      ∃ q p, pageIndex i = some q ∧ f.base q = some p ∧ p (entryIndex i) = e := by
  simp [freeList, Option.bind_eq_some_iff]

/-- What `get_first_free_chunk` does where it does not run off the list. -/
theorem getFirstFreeChunk_cases {f f' : FreeChunkList} {r : ℤ}
    (h : f.getFirstFreeChunk = some (f', r)) :
    (f.current = -1 ∧ f' = f ∧ r = -1) ∨
      (f.current ≠ -1 ∧ ∃ e : UInt32, f.freeList f.current = some e ∧
        f' = { f with current := f.current - 1 } ∧ r = int32 e.toNat) := by
  unfold getFirstFreeChunk at h
  split_ifs at h with hc
  · simp only [Option.some.injEq, Prod.mk.injEq] at h
    exact Or.inl ⟨hc, h.1.symm, h.2.symm⟩
  · obtain ⟨e, he, hres⟩ := Option.map_eq_some_iff.1 h
    simp only [Prod.mk.injEq] at hres
    exact Or.inr ⟨hc, e, he, hres.1.symm, hres.2.symm⟩

/-- A pop takes the last entry and leaves the others. -/
theorem Shaped.pop {f : FreeChunkList} (h : f.Shaped) (hc : f.current ≠ -1) {e : UInt32}
    (he : f.freeList f.current = some e) :
    ({ f with current := f.current - 1 } : FreeChunkList).Shaped ∧ f.Has e ∧
      (∀ x, ({ f with current := f.current - 1 } : FreeChunkList).Has x → f.Has x) ∧
      ∀ x, f.Has x → x = e ∨ ({ f with current := f.current - 1 } : FreeChunkList).Has x := by
  have hle := h.le_current
  have hlt := h.current_lt
  refine ⟨⟨h.total_mod, by simp only; omega, by simp only; omega, h.null⟩,
    ⟨f.current, by omega, le_rfl, he⟩, ?_, ?_⟩
  · rintro x ⟨i, h₀, hi, hx⟩
    exact ⟨i, h₀, by simp only at hi; omega, hx⟩
  · rintro x ⟨i, h₀, hi, hx⟩
    by_cases hic : i = f.current
    · subst hic
      exact Or.inl (by simpa [he] using hx.symm)
    · exact Or.inr ⟨i, h₀, by simp only; omega, hx⟩

/-- The page of an index beyond `totalCnt` has no memory. -/
theorem Shaped.pageIndex_ne {f : FreeChunkList} (h : f.Shaped) {i j : ℤ} {q q' : Fin 1024}
    {p : Page} (hi : pageIndex i = some q) (htot : f.totalCnt ≤ i) (hj : pageIndex j = some q')
    (hp : f.base q' = some p) : q' ≠ q := by
  rintro rfl
  unfold pageIndex at hi hj
  split_ifs at hi hj
  simp only [Option.some.injEq] at hi hj
  have hmod := h.total_mod
  have hnull := h.null q' (by subst hi; simp only; omega)
  rw [hnull] at hp
  cases hp

/-- The first index of a page. -/
theorem pageIndex_le {i j : ℤ} {q : Fin 1024} (hi : pageIndex i = some q) (hmod : i % 1024 = 0)
    (hj : pageIndex j = some q) : i ≤ j := by
  unfold pageIndex at hi hj
  split_ifs at hi hj
  simp only [Option.some.injEq] at hi hj
  subst hi
  simp only [Fin.mk.injEq] at hj
  omega

/-- An entry is written. -/
theorem setFreeList_eq_some {f f' : FreeChunkList} {i : ℤ} {v : UInt32}
    (h : f.setFreeList i v = some f') : f'.totalCnt = f.totalCnt ∧ f'.current = f.current ∧
      (∀ r, (f'.base r).isSome = (f.base r).isSome) ∧
      ∀ j : ℤ, f'.freeList j = if j = i then some v else f.freeList j := by
  obtain ⟨q, hq, hrest⟩ := Option.bind_eq_some_iff.1 h
  obtain ⟨p, hp, -⟩ := Option.map_eq_some_iff.1 hrest
  obtain ⟨f'', hf'', hspec⟩ := setFreeList_spec (v := v) hq hp
  obtain rfl : f'' = f' := by simpa [hf''] using h
  exact hspec

/-- One more page, for a list whose pages are full. -/
theorem Shaped.grow {f : FreeChunkList} (h : f.Shaped) (hfull : f.totalCnt = f.current + 1)
    {q : Fin 1024} (hq : pageIndex (f.current + 1) = some q) (p : Page) :
    ({ f with
        totalCnt := f.totalCnt + 1024
        base := Function.update f.base q (some p) } : FreeChunkList).Shaped ∧
      ∀ e, ({ f with
        totalCnt := f.totalCnt + 1024
        base := Function.update f.base q (some p) } : FreeChunkList).Has e ↔ f.Has e := by
  have hmod := h.total_mod
  have hle := h.le_current
  refine ⟨⟨by simp only; omega, hle, by simp only; omega, fun r hr => ?_⟩, fun e => ⟨?_, ?_⟩⟩
  · have hrq : r ≠ q := by
      rintro rfl
      unfold pageIndex at hq
      split_ifs at hq
      simp only [Option.some.injEq] at hq
      subst hq
      simp only at hr
      omega
    simp only at hr ⊢
    rw [Function.update_of_ne hrq]
    exact h.null r (by omega)
  · rintro ⟨i, h₀, hi, he⟩
    obtain ⟨q', p', hq', hp', hval⟩ := freeList_eq_some.1 he
    have hqq : q' ≠ q := by
      rintro rfl
      have hge := pageIndex_le hq (by omega) hq'
      simp only at hi
      omega
    exact ⟨i, h₀, hi, freeList_eq_some.2 ⟨q', p', hq', by simpa [hqq] using hp', hval⟩⟩
  · rintro ⟨i, h₀, hi, he⟩
    obtain ⟨q', p', hq', hp', hval⟩ := freeList_eq_some.1 he
    have hne := h.pageIndex_ne hq hfull.le hq' hp'
    exact ⟨i, h₀, hi, freeList_eq_some.2 ⟨q', p', hq', by simpa [hne] using hp', hval⟩⟩

/-- A push that gets no page : `current` and the size advance, and no entry is written. -/
theorem Shaped.noPage {f : FreeChunkList} (h : f.Shaped) (hfull : f.totalCnt = f.current + 1) :
    ({ f with
        current := f.current + 1
        totalCnt := f.totalCnt + 1024 } : FreeChunkList).Shaped ∧
      ∀ e, ({ f with
        current := f.current + 1
        totalCnt := f.totalCnt + 1024 } : FreeChunkList).Has e ↔ f.Has e := by
  have hmod := h.total_mod
  have hle := h.le_current
  refine ⟨⟨by simp only; omega, by simp only; omega, by simp only; omega, fun q hq => ?_⟩,
    fun e => ⟨?_, ?_⟩⟩
  · exact h.null q (by simp only at hq; omega)
  · rintro ⟨i, h₀, hi, he⟩
    refine ⟨i, h₀, ?_, he⟩
    by_contra hgt
    obtain ⟨q, p, hq, hp, -⟩ := freeList_eq_some.1 he
    exact h.pageIndex_ne hq (by omega) hq hp rfl
  · rintro ⟨i, h₀, hi, he⟩
    exact ⟨i, h₀, by simp only; omega, he⟩

/-- A push on a page that has room. -/
theorem Shaped.setNext {f f' : FreeChunkList} (h : f.Shaped) (hroom : f.current + 1 < f.totalCnt)
    {e₀ : UInt32} (hset : ({ f with current := f.current + 1 } : FreeChunkList).setFreeList
      (f.current + 1) e₀ = some f') :
    f'.Shaped ∧ (∀ e, f.Has e → f'.Has e) ∧ ∀ e, f'.Has e → f.Has e ∨ e = e₀ := by
  have hmod := h.total_mod
  have hle := h.le_current
  obtain ⟨htot, hcur, hbase, hlist⟩ := setFreeList_eq_some hset
  simp only at htot hcur hbase
  refine ⟨⟨by omega, by omega, by omega, fun r hr => ?_⟩, ?_, ?_⟩
  · have hnull := hbase r
    rwa [h.null r (by omega), Option.isSome_none, Option.isSome_eq_false_iff,
      Option.isNone_iff_eq_none] at hnull
  · rintro e ⟨i, h₀, hi, he⟩
    exact ⟨i, h₀, by omega, by rw [hlist, if_neg (by omega)]; exact he⟩
  · rintro e ⟨i, h₀, hi, he⟩
    rw [hlist] at he
    split_ifs at he with hic
    · exact Or.inr (by simpa using he.symm)
    · exact Or.inl ⟨i, h₀, by omega, he⟩

/-- A push where it does not run off the table : the entries stay, and at most the one pushed is
new. -/
theorem Shaped.push {f f' : FreeChunkList} (h : f.Shaped) {offset ret : ℤ} {malloc : Option Page}
    (hadd : f.addFreeChunk offset malloc = some (f', ret)) :
    f'.Shaped ∧ (∀ e, f.Has e → f'.Has e) ∧
      ∀ e, f'.Has e → f.Has e ∨ e = UInt32.ofInt offset := by
  have hlt := h.current_lt
  by_cases hfull : f.current + 1 ≥ f.totalCnt
  · have htot : f.totalCnt = f.current + 1 := by omega
    cases malloc with
    | none =>
      simp only [addFreeChunk, if_pos hfull, Option.some.injEq, Prod.mk.injEq] at hadd
      obtain ⟨rfl, -⟩ := hadd
      obtain ⟨hshaped, hhas⟩ := h.noPage htot
      exact ⟨hshaped, fun e => (hhas e).2, fun e he => Or.inl ((hhas e).1 he)⟩
    | some p =>
      simp only [addFreeChunk, if_pos hfull, bind, Option.bind_eq_some_iff, Option.some.injEq,
        Prod.mk.injEq] at hadd
      obtain ⟨g, hg, g', hg', rfl, -⟩ := hadd
      obtain ⟨q, hq, rfl⟩ := Option.map_eq_some_iff.1 hg
      obtain ⟨hshaped, hhas⟩ := h.grow htot hq p
      obtain ⟨hpushed, hold, hnew⟩ := hshaped.setNext (by simp only; omega) hg'
      exact ⟨hpushed, fun e he => hold e ((hhas e).2 he),
        fun e he => (hnew e he).imp_left (hhas e).1⟩
  · simp only [addFreeChunk, if_neg hfull, bind, Option.bind_eq_some_iff, Option.some.injEq,
      Prod.mk.injEq] at hadd
    obtain ⟨g', hg', rfl, -⟩ := hadd
    exact h.setNext (not_le.1 hfull) hg'

end FreeChunkList

end Agilefs
