import Agilefs.Runs
import Mathlib.Algebra.BigOperators.Group.Finset.Basic
import Mathlib.Algebra.Order.BigOperators.Group.Finset
import Mathlib.Logic.Relation

/-!
# Threads on a shared state

Threads with states of their own act on a shared state, one step at a time and in any order : a
schedule lists the threads that take the steps. What thread `i` does in a step is `act i`, a partial
function of the shared state and its own.

`exec_invariant` is the rule of rely and guarantee : if each thread keeps an invariant of its own
and does nothing but what it guarantees, and the invariants of the other threads stand what it
guarantees, then all of them hold after every schedule. `exec_length_le` bounds the length of a
schedule by a measure of the states of the threads (`exists_stuck` : they can be run to an end), and
`exec_simulates` compares the threads on two shared states.

`Reaches` is a thread alone (`exec_of_reaches`).
-/

/-- A shared state and one for each thread. -/
structure Threads (ι S L : Type*) where
  shared : S
  own : ι → L

namespace Threads

open Function

variable {ι S L : Type*} [DecidableEq ι]

/-- A step of thread `i`. -/
def step (act : ι → S → L → Option (S × L)) (t : Threads ι S L) (i : ι) :
    Option (Threads ι S L) :=
  (act i t.shared (t.own i)).map fun r => ⟨r.1, update t.own i r.2⟩

/-- Thread `i` gets from one shared state and own state to others. -/
def Reaches (act : ι → S → L → Option (S × L)) (i : ι) : S × L → S × L → Prop :=
  Relation.ReflTransGen fun x y => act i x.1 x.2 = some y

variable {act : ι → S → L → Option (S × L)} {t t' : Threads ι S L} {sched : List ι} {i : ι}

theorem step_eq_some : step act t i = some t' ↔
    ∃ s l, act i t.shared (t.own i) = some (s, l) ∧ t' = ⟨s, update t.own i l⟩ := by
  rw [step, Option.map_eq_some_iff]
  exact ⟨fun ⟨r, hr, h⟩ => ⟨r.1, r.2, hr, h.symm⟩, fun ⟨s, l, hr, h⟩ => ⟨(s, l), hr, h.symm⟩⟩

/-- Nobody can take a step. -/
theorem step_eq_none : step act t i = none ↔ act i t.shared (t.own i) = none :=
  Option.map_eq_none_iff

/-! ## Rely and guarantee -/

/-- What a step of one thread does to the invariants of all. -/
theorem step_invariant {Com : S → Prop} {Inv : ι → S → L → Prop} {Guar : ι → S → S → Prop}
    (hact : ∀ i s l s' l', Com s → Inv i s l → act i s l = some (s', l') →
      Com s' ∧ Inv i s' l' ∧ Guar i s s')
    (hrely : ∀ i j s s' l, j ≠ i → Inv j s l → Guar i s s' → Inv j s' l)
    (hC : Com t.shared) (hI : ∀ i, Inv i t.shared (t.own i)) (h : step act t i = some t') :
    Com t'.shared ∧ ∀ i, Inv i t'.shared (t'.own i) := by
  obtain ⟨s, l, hr, rfl⟩ := step_eq_some.1 h
  obtain ⟨hC', hI', hG⟩ := hact i _ _ _ _ hC (hI i) hr
  refine ⟨hC', fun j => ?_⟩
  by_cases hj : j = i
  · subst hj
    simpa only [update_self] using hI'
  · simpa only [update_of_ne hj] using hrely i j _ _ _ hj (hI j) hG

/-- The rule of rely and guarantee. -/
theorem exec_invariant {Com : S → Prop} {Inv : ι → S → L → Prop} {Guar : ι → S → S → Prop}
    (hact : ∀ i s l s' l', Com s → Inv i s l → act i s l = some (s', l') →
      Com s' ∧ Inv i s' l' ∧ Guar i s s')
    (hrely : ∀ i j s s' l, j ≠ i → Inv j s l → Guar i s s' → Inv j s' l)
    (hC : Com t.shared) (hI : ∀ i, Inv i t.shared (t.own i))
    (h : Runs.exec (step act) t sched = some t') :
    Com t'.shared ∧ ∀ i, Inv i t'.shared (t'.own i) :=
  Runs.exec_invariant (I := fun t => Com t.shared ∧ ∀ i, Inv i t.shared (t.own i))
    (fun _ _ _ hI hs => step_invariant hact hrely hI.1 hI.2 hs) ⟨hC, hI⟩ h

/-- A schedule takes no more steps than its threads have before them. -/
theorem exec_length_le [Fintype ι] {Inv : Threads ι S L → Prop} {m : ι → L → ℕ}
    (hact : ∀ t i t', Inv t → step act t i = some t' → Inv t' ∧ m i (t'.own i) < m i (t.own i)) :
    ∀ {sched : List ι} {t t' : Threads ι S L}, Inv t → Runs.exec (step act) t sched = some t' →
      sched.length + ∑ i, m i (t'.own i) ≤ ∑ i, m i (t.own i)
  | [], t, t', _, h => by
    obtain rfl := Option.some.inj h
    rw [List.length_nil, Nat.zero_add]
  | i :: sched, t, t', ht, h => by
    obtain ⟨t₁, h₁, h'⟩ := Option.bind_eq_some_iff.1 h
    obtain ⟨ht₁, hlt⟩ := hact t i t₁ ht h₁
    have ih := exec_length_le hact ht₁ h'
    obtain ⟨s, l, -, rfl⟩ := step_eq_some.1 h₁
    simp only at ih hlt
    have hsum : ∑ j, m j (update t.own i l j) < ∑ j, m j (t.own j) := by
      refine Finset.sum_lt_sum (fun j _ => ?_) ⟨i, Finset.mem_univ i, hlt⟩
      by_cases hj : j = i
      · subst hj
        exact hlt.le
      · rw [update_of_ne hj]
    rw [List.length_cons]
    omega

/-- Threads whose steps are bounded can be run until none of them can take a step. -/
theorem exists_stuck [Fintype ι] {Inv : Threads ι S L → Prop} {m : ι → L → ℕ}
    (hact : ∀ t i t', Inv t → step act t i = some t' → Inv t' ∧ m i (t'.own i) < m i (t.own i))
    (ht : Inv t) : ∃ sched t', Runs.exec (step act) t sched = some t' ∧ Inv t' ∧
      ∀ i, step act t' i = none := by
  induction hn : ∑ i, m i (t.own i) using Nat.strong_induction_on generalizing t with
  | _ n ih =>
    by_cases hstuck : ∀ i, step act t i = none
    · exact ⟨[], t, rfl, ht, hstuck⟩
    · rw [not_forall] at hstuck
      obtain ⟨i, hi⟩ := hstuck
      obtain ⟨t₁, h₁⟩ := Option.ne_none_iff_exists'.1 hi
      have hone : Runs.exec (step act) t [i] = some t₁ := by
        rw [Runs.exec, h₁, Option.bind_some, Runs.exec]
      have hlt := exec_length_le hact ht hone
      rw [List.length_singleton, hn] at hlt
      obtain ⟨sched, t', h', ht', hnone⟩ := ih _ (by omega) (hact t i t₁ ht h₁).1 rfl
      exact ⟨i :: sched, t', by rw [Runs.exec, h₁, Option.bind_some, h'], ht', hnone⟩

/-! ## Two shared states -/

/-- Threads that do the same on related shared states, as long as an invariant of the second ones
holds. -/
theorem exec_simulates {S' : Type*} {act' : ι → S' → L → Option (S' × L)} (R : S → S' → Prop)
    (Inv : Threads ι S' L → Prop)
    (hinv : ∀ u i u', Inv u → step act' u i = some u' → Inv u')
    (hact : ∀ i s u s' l' own, R s u → Inv ⟨u, own⟩ → act i s (own i) = some (s', l') →
      ∃ u', act' i u (own i) = some (u', l') ∧ R s' u') :
    ∀ {sched : List ι} {t t' : Threads ι S L} {u : S'}, R t.shared u → Inv ⟨u, t.own⟩ →
      Runs.exec (step act) t sched = some t' →
      ∃ u', Runs.exec (step act') ⟨u, t.own⟩ sched = some ⟨u', t'.own⟩ ∧ R t'.shared u' ∧
        Inv ⟨u', t'.own⟩
  | [], t, t', u, hR, hu, h => by
    obtain rfl := Option.some.inj h
    exact ⟨u, rfl, hR, hu⟩
  | i :: sched, t, t', u, hR, hu, h => by
    obtain ⟨t₁, h₁, h'⟩ := Option.bind_eq_some_iff.1 h
    obtain ⟨s, l, hr, rfl⟩ := step_eq_some.1 h₁
    obtain ⟨u₁, hr', hR₁⟩ := hact i _ u _ _ _ hR hu hr
    have hstep : step act' ⟨u, t.own⟩ i = some ⟨u₁, update t.own i l⟩ :=
      step_eq_some.2 ⟨u₁, l, hr', rfl⟩
    obtain ⟨u', hexec, hR', hu'⟩ := exec_simulates R Inv hinv hact (u := u₁) hR₁
      (hinv _ _ _ hu hstep) h'
    refine ⟨u', ?_, hR', hu'⟩
    rw [Runs.exec, hstep, Option.bind_some]
    exact hexec

/-! ## One thread alone -/

/-- What a thread reaches, it reaches in some number of steps that are all its own. -/
theorem exec_of_reaches {x y : S × L} (h : Reaches act i x y) (own : ι → L) (hx : own i = x.2) :
    ∃ n, Runs.exec (step act) ⟨x.1, own⟩ (List.replicate n i) = some ⟨y.1, update own i y.2⟩ := by
  induction h using Relation.ReflTransGen.head_induction_on generalizing own with
  | refl => exact ⟨0, by rw [← hx, update_eq_self]; rfl⟩
  | @head x z hstep _ ih =>
    obtain ⟨n, hn⟩ := ih (update own i z.2) (update_self ..)
    have hact : act i x.1 (own i) = some z := by rw [hx, hstep]
    have hfirst : step act ⟨x.1, own⟩ i = some ⟨z.1, update own i z.2⟩ :=
      step_eq_some.2 ⟨z.1, z.2, hact, rfl⟩
    refine ⟨n + 1, ?_⟩
    rw [List.replicate_succ, Runs.exec, hfirst, Option.bind_some, hn, update_idem]

/-- Schedules one after the other. -/
theorem exec_append {t₁ t₂ : Threads ι S L} : ∀ {s₁ : List ι} {t : Threads ι S L} {s₂ : List ι},
    Runs.exec (step act) t s₁ = some t₁ → Runs.exec (step act) t₁ s₂ = some t₂ →
    Runs.exec (step act) t (s₁ ++ s₂) = some t₂
  | [], _, _, h₁, h₂ => by
    obtain rfl := Option.some.inj h₁
    exact h₂
  | i :: s₁, t, s₂, h₁, h₂ => by
    obtain ⟨u, hu, hrest⟩ := Option.bind_eq_some_iff.1 h₁
    rw [List.cons_append, Runs.exec, hu, Option.bind_some]
    exact exec_append hrest h₂

/-- A thread that runs, and then the others. -/
theorem exec_reaches_append {s : S} {l : L} {t₂ : Threads ι S L} {s₂ : List ι}
    (h : Reaches act i (t.shared, t.own i) (s, l))
    (h₂ : Runs.exec (step act) ⟨s, update t.own i l⟩ s₂ = some t₂) :
    ∃ sched, Runs.exec (step act) t sched = some t₂ := by
  obtain ⟨n, hn⟩ := exec_of_reaches h t.own rfl
  exact ⟨_, exec_append hn h₂⟩

/-- All steps of a single thread are its own. -/
theorem reaches_of_exec [Subsingleton ι] (i : ι) : ∀ {sched : List ι} {t t' : Threads ι S L},
    Runs.exec (step act) t sched = some t' →
    Reaches act i (t.shared, t.own i) (t'.shared, t'.own i)
  | [], _, _, h => by
    obtain rfl := Option.some.inj h
    exact .refl
  | j :: sched, t, t', h => by
    obtain rfl : j = i := Subsingleton.elim j i
    obtain ⟨t₁, h₁, hrest⟩ := Option.bind_eq_some_iff.1 h
    obtain ⟨s, l, hact, rfl⟩ := step_eq_some.1 h₁
    have hreach := reaches_of_exec j hrest
    simp only [update_self] at hreach
    exact .head hact hreach

end Threads
