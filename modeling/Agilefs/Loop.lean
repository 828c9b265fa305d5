import Mathlib.Data.Nat.Notation
import Mathlib.Logic.Basic

/-!
# While loops

A loop is a test and a body that may be undefined; `run` executes it with a bound on the
number of iterations. `run_spec` is the rule for total correctness : an invariant, and a
measure that each iteration decreases. `run_invariant` is the rule for partial correctness.

`run_of_interrupted` is the rule for loops of numbered calls, finitely many of which may be
interrupted : an interrupted call does not have to decrease the measure. The bound on the
iterations does not matter once the loop ends (`run_unique`). `run_simulates` compares two loops.

`Enters` speaks of the iterations themselves, also of those of a loop that is left before its end :
the states in which the body runs.
-/

namespace Loop

variable {S : Type*} {cond : S → Bool} {body : S → Option S}

/-- `while (cond s) s = body s`, for fewer than the given number of iterations. -/
def run (cond : S → Bool) (body : S → Option S) : ℕ → S → Option S
  | 0, _ => none
  | n + 1, s => if cond s then (body s).bind (run cond body n) else some s

/-- A loop whose iterations keep `I` and decrease `m` ends, in an `I`-state that fails the
test. -/
theorem run_spec {I : S → Prop} {m : S → ℕ}
    (hbody : ∀ s, I s → cond s → ∃ s', body s = some s' ∧ I s' ∧ m s' < m s) :
    ∀ {n : ℕ} {s : S}, I s → m s < n → ∃ s', run cond body n s = some s' ∧ I s' ∧ cond s' = false
  | 0, s, _, hn => by omega
  | n + 1, s, hs, hn => by
    cases hc : cond s with
    | false => exact ⟨s, by simp [run, hc], hs, hc⟩
    | true =>
      obtain ⟨s₁, h₁, hs₁, hm⟩ := hbody s hs hc
      obtain ⟨s', h', hs', hc'⟩ := run_spec hbody hs₁ (by omega : m s₁ < n)
      exact ⟨s', by simp [run, hc, h₁, h'], hs', hc'⟩

/-- What every iteration preserves holds after the loop. -/
theorem run_invariant {I : S → Prop}
    (hbody : ∀ s s', I s → cond s → body s = some s' → I s') :
    ∀ {n : ℕ} {s s' : S}, I s → run cond body n s = some s' → I s' ∧ cond s' = false
  | 0, _, _, _, h => by simp [run] at h
  | n + 1, s, s', hs, h => by
    cases hc : cond s with
    | false =>
      obtain rfl : s = s' := by simpa [run, hc] using h
      exact ⟨hs, hc⟩
    | true =>
      obtain ⟨s₁, h₁, h'⟩ : ∃ s₁, body s = some s₁ ∧ run cond body n s₁ = some s' := by
        simpa [run, hc, Option.bind_eq_some_iff] using h
      exact run_invariant hbody (hbody s s₁ hs hc h₁) h'

theorem run_succ {n : ℕ} {s s₁ s' : S} (hc : cond s) (hb : body s = some s₁)
    (h : run cond body n s₁ = some s') : run cond body (n + 1) s = some s' := by
  simp [run, hc, hb, h]

theorem run_mono : ∀ {n k : ℕ} {s s' : S}, run cond body n s = some s' → n ≤ k →
    run cond body k s = some s'
  | 0, _, _, _, h, _ => by simp [run] at h
  | n + 1, 0, _, _, _, hk => by omega
  | n + 1, k + 1, s, s', h, hk => by
    cases hc : cond s with
    | false => simpa [run, hc] using h
    | true =>
      obtain ⟨s₁, h₁, h'⟩ : ∃ s₁, body s = some s₁ ∧ run cond body n s₁ = some s' := by
        simpa [run, hc, Option.bind_eq_some_iff] using h
      simp [run, hc, h₁, run_mono h' (by omega : n ≤ k)]

/-- Two loops that do the same to related states. -/
theorem run_simulates {T : Type*} {cond' : T → Bool} {body' : T → Option T} {R : S → T → Prop}
    (hcond : ∀ s t, R s t → cond' t = cond s)
    (hbody : ∀ s t s', R s t → cond s → body s = some s' → ∃ t', body' t = some t' ∧ R s' t') :
    ∀ {n : ℕ} {s s' : S} {t : T}, R s t → run cond body n s = some s' →
      ∃ t', run cond' body' n t = some t' ∧ R s' t'
  | 0, _, _, _, _, h => by simp [run] at h
  | n + 1, s, s', t, hR, h => by
    cases hc : cond s with
    | false =>
      obtain rfl : s = s' := by simpa [run, hc] using h
      exact ⟨t, by simp [run, hcond s t hR, hc], hR⟩
    | true =>
      obtain ⟨s₁, h₁, h'⟩ : ∃ s₁, body s = some s₁ ∧ run cond body n s₁ = some s' := by
        simpa [run, hc, Option.bind_eq_some_iff] using h
      obtain ⟨t₁, ht₁, hR₁⟩ := hbody s t s₁ hR hc h₁
      obtain ⟨t', ht', hR'⟩ := run_simulates hcond hbody hR₁ h'
      exact ⟨t', run_succ (by rw [hcond s t hR, hc]) ht₁ ht', hR'⟩

/-- A loop ends in one state, however many iterations are allowed. -/
theorem run_unique {n k : ℕ} {s a b : S} (ha : run cond body n s = some a)
    (hb : run cond body k s = some b) : a = b := by
  have ha' := run_mono ha (Nat.le_max_left n k)
  rw [run_mono hb (Nat.le_max_right n k), Option.some.injEq] at ha'
  exact ha'.symm

/-- A loop of calls numbered by `idx`, finitely many of which are interrupted, ends if the other
calls decrease `m`. -/
theorem run_of_interrupted {I : S → Prop} {m idx : S → ℕ} {interrupted : ℕ → Prop}
    (hfin : ∃ N, ∀ k, N ≤ k → ¬interrupted k)
    (hbody : ∀ s, I s → cond s → ∃ s', body s = some s' ∧ I s' ∧ idx s' = idx s + 1 ∧
      m s' ≤ m s ∧ (¬interrupted (idx s) → m s' < m s)) {s : S} (hs : I s) :
    ∃ n s', run cond body n s = some s' ∧ I s' ∧ cond s' = false := by
  obtain ⟨N, hN⟩ := hfin
  -- calls that may still be interrupted count too
  refine ⟨_, run_spec (I := I) (m := fun s => N - idx s + m s) (fun s hs hc => ?_) hs
    (Nat.lt_succ_self _)⟩
  obtain ⟨s', h', hs', hidx, hle, hlt⟩ := hbody s hs hc
  refine ⟨s', h', hs', ?_⟩
  rcases Nat.lt_or_ge (idx s) N with h | h
  · rw [hidx]
    omega
  · have := hlt (hN _ h)
    rw [hidx]
    omega

/-- A loop started in the first state runs its body in the second. -/
inductive Enters (cond : S → Bool) (body : S → Option S) : S → S → Prop
  | here {s : S} (hc : cond s) : Enters cond body s s
  | next {s s₁ s' : S} (hc : cond s) (hb : body s = some s₁) (h : Enters cond body s₁ s') :
    Enters cond body s s'

/-- What every iteration preserves holds in each. -/
theorem Enters.invariant {I : S → Prop}
    (hbody : ∀ s s', I s → cond s → body s = some s' → I s') {s s' : S}
    (h : Enters cond body s s') (hs : I s) : I s' ∧ cond s' := by
  induction h with
  | here hc => exact ⟨hs, hc⟩
  | next hc hb _ ih => exact ih (hbody _ _ hs hc hb)

end Loop
