import Mathlib.Data.List.Basic

/-!
# Runs of a partial step function

A system is a partial step function `step : S → Op → Option S` : `none` is a step the
system has no meaning for (an aborted assertion, an access outside an array). Two
predicates speak of a whole run of operations from a state.

`Always step P R s ops` : every state of the run satisfies `P`, every step is defined
and is related by `R`. `Each step C s ops` : every step of the run is taken in a state
that meets `C`. `always_of_each` proves the first from the second by induction on the
run, and `always_iff_each` is the exact version (`always_iff_each_of_step` where nothing is assumed
of the steps).

`exec_invariant` is the rule for safety : what every step preserves holds in every state a
run reaches.

`trace` runs steps that also return something. `trace_of_simulates` is the rule for
refinement : if each step returns what the specification returns in the state `abs s` it
stands for, so do whole runs.
-/

namespace Runs

variable {S Op : Type*} {step : S → Op → Option S}

/-- Run `ops` from `s`; `none` if a step is undefined. -/
def exec (step : S → Op → Option S) : S → List Op → Option S
  | s, [] => some s
  | s, op :: ops => (step s op).bind fun s' => exec step s' ops

/-- Every step of the run of `ops` from `s` is taken in a state that meets `C`. -/
def Each (step : S → Op → Option S) (C : S → Op → Prop) : S → List Op → Prop
  | _, [] => True
  | s, op :: ops => C s op ∧ ∀ s', step s op = some s' → Each step C s' ops

/-- Every state of the run satisfies `P`; every step is defined and satisfies `R`. -/
def Always (step : S → Op → Option S) (P : S → Prop) (R : S → Op → S → Prop) :
    S → List Op → Prop
  | s, [] => P s
  | s, op :: ops => P s ∧ ∃ s', step s op = some s' ∧ R s op s' ∧ Always step P R s' ops

theorem Always.head {P : S → Prop} {R : S → Op → S → Prop} {s : S} {ops : List Op}
    (h : Always step P R s ops) : P s := by
  cases ops with
  | nil => exact h
  | cons op ops => exact h.1

/-- The last state of an `Always` run is reached and satisfies `P`. -/
theorem Always.exec {P : S → Prop} {R : S → Op → S → Prop} :
    ∀ {ops : List Op} {s : S}, Always step P R s ops →
      ∃ s', Runs.exec step s ops = some s' ∧ P s'
  | [], s, h => ⟨s, rfl, h⟩
  | op :: ops, s, ⟨_, s₁, h₁, _, h⟩ => by
    obtain ⟨s', h', hP⟩ := h.exec
    exact ⟨s', by simp [Runs.exec, h₁, h'], hP⟩

/-- Conditions that hold separately hold together. -/
theorem Each.and {C D : S → Op → Prop} :
    ∀ {ops : List Op} {s : S}, Each step C s ops → Each step D s ops →
      Each step (fun s op => C s op ∧ D s op) s ops
  | [], _, _, _ => trivial
  | _ :: _, _, ⟨hC, hC'⟩, ⟨hD, hD'⟩ => ⟨⟨hC, hD⟩, fun s' h => (hC' s' h).and (hD' s' h)⟩

/-- A condition on the operations alone holds at each step. -/
theorem Each.of_forall_mem {C : Op → Prop} :
    ∀ {ops : List Op} {s : S}, (∀ op ∈ ops, C op) → Each step (fun _ op => C op) s ops
  | [], _, _ => trivial
  | op :: ops, _, h =>
    ⟨h op (by simp), fun _ _ => Each.of_forall_mem fun op' h' => h op' (by simp [h'])⟩

/-- A condition that each step meets after the steps before it. -/
theorem Each.of_exec {C : S → Op → Prop} :
    ∀ {ops : List Op} {s : S}, (∀ (k : ℕ) (hk : k < ops.length) (s' : S),
      exec step s (ops.take k) = some s' → C s' ops[k]) → Each step C s ops
  | [], _, _ => trivial
  | op :: ops, s, h => by
    refine ⟨h 0 (Nat.succ_pos _) s rfl, fun s₁ h₁ => Each.of_exec fun k hk s' hs' => ?_⟩
    exact h (k + 1) (Nat.succ_lt_succ hk) s' (by simp [exec, h₁, hs'])

instance decidableEach {C : S → Op → Prop} [∀ s op, Decidable (C s op)] :
    ∀ (s : S) (ops : List Op), Decidable (Each step C s ops)
  | _, [] => isTrue trivial
  | s, op :: ops =>
    have (s' : S) : Decidable (Each step C s' ops) := decidableEach s' ops
    inferInstanceAs (Decidable (C s op ∧ ∀ s' ∈ step s op, Each step C s' ops))

/-- The run rule : if `I` implies `P`, and a step that meets its condition in an `I`-state
is defined, satisfies `R` and keeps `I`, then a run whose steps all meet the condition
satisfies `P` and `R` throughout. -/
theorem always_of_each {I P : S → Prop} {R : S → Op → S → Prop} {C : S → Op → Prop}
    (hI : ∀ s, I s → P s)
    (hstep : ∀ s op, I s → C s op → ∃ s', step s op = some s' ∧ R s op s' ∧ I s') :
    ∀ {ops : List Op} {s : S}, I s → Each step C s ops → Always step P R s ops
  | [], s, hs, _ => hI s hs
  | op :: ops, s, hs, ⟨hC, hrest⟩ => by
    obtain ⟨s', h, hR, hs'⟩ := hstep s op hs hC
    exact ⟨hI s hs, s', h, hR, always_of_each hI hstep hs' (hrest s' h)⟩

/-- The exact version, under an assumption `A` on every step of the run : a run satisfies
`P` and `R` throughout if and only if each step meets the condition. -/
theorem always_iff_each {I P : S → Prop} {R : S → Op → S → Prop} {A C : S → Op → Prop}
    (hI : ∀ s, I s → P s)
    (hstep : ∀ s op, I s → A s op → C s op → ∃ s', step s op = some s' ∧ R s op s' ∧ I s')
    (hconv : ∀ s op s', I s → A s op → step s op = some s' → R s op s' → P s' → C s op) :
    ∀ {ops : List Op} {s : S}, I s → Each step A s ops →
      (Always step P R s ops ↔ Each step C s ops)
  | [], s, hs, _ => ⟨fun _ => trivial, fun _ => hI s hs⟩
  | op :: ops, s, hs, ⟨hA, hArest⟩ => by
    constructor
    · rintro ⟨_, s₁, h₁, hR, hrest⟩
      have hC := hconv s op s₁ hs hA h₁ hR hrest.head
      obtain ⟨s', h', -, hs'⟩ := hstep s op hs hA hC
      obtain rfl : s₁ = s' := by simpa [h₁] using h'
      refine ⟨hC, fun s'' h'' => ?_⟩
      obtain rfl : s₁ = s'' := by simpa [h₁] using h''
      exact (always_iff_each hI hstep hconv hs' (hArest s₁ h₁)).1 hrest
    · rintro ⟨hC, hrest⟩
      obtain ⟨s', h', hR, hs'⟩ := hstep s op hs hA hC
      exact ⟨hI s hs, s', h', hR,
        (always_iff_each hI hstep hconv hs' (hArest s' h')).2 (hrest s' h')⟩

/-- The exact version with no assumption. -/
theorem always_iff_each_of_step {I P : S → Prop} {R : S → Op → S → Prop} {C : S → Op → Prop}
    (hI : ∀ s, I s → P s)
    (hstep : ∀ s op, I s → C s op → ∃ s', step s op = some s' ∧ R s op s' ∧ I s')
    (hconv : ∀ s op s', I s → step s op = some s' → R s op s' → P s' → C s op)
    {ops : List Op} {s : S} (hs : I s) : Always step P R s ops ↔ Each step C s ops :=
  always_iff_each (A := fun _ _ => True) hI (fun s op hs _ hC => hstep s op hs hC)
    (fun s op s' hs _ h hR hP => hconv s op s' hs h hR hP) hs
    (Each.of_forall_mem fun _ _ => trivial)

/-- A condition on the operations alone, read off a run whose steps are all defined. -/
theorem Each.forall_mem {P : S → Prop} {R : S → Op → S → Prop} {C : Op → Prop} :
    ∀ {ops : List Op} {s : S}, Always step P R s ops → Each step (fun _ op => C op) s ops →
      ∀ op ∈ ops, C op
  | [], _, _, _ => by simp
  | op :: ops, s, ⟨_, s', h, _, hrest⟩, ⟨hC, hC'⟩ => by
    intro op' hop'
    rcases List.mem_cons.1 hop' with rfl | hop'
    · exact hC
    · exact Each.forall_mem hrest (hC' s' h) op' hop'

/-- The exact version for a condition on the operations alone. -/
theorem always_iff_forall_mem {I P : S → Prop} {R : S → Op → S → Prop} {A : S → Op → Prop}
    {C : Op → Prop} (hI : ∀ s, I s → P s)
    (hstep : ∀ s op, I s → A s op → C op → ∃ s', step s op = some s' ∧ R s op s' ∧ I s')
    (hconv : ∀ s op s', I s → A s op → step s op = some s' → R s op s' → P s' → C op)
    {ops : List Op} {s : S} (hs : I s) (hA : Each step A s ops) :
    Always step P R s ops ↔ ∀ op ∈ ops, C op := by
  have h := always_iff_each (C := fun _ op => C op) hI hstep hconv hs hA
  exact ⟨fun ha => Each.forall_mem ha (h.1 ha), fun hC => h.2 (Each.of_forall_mem hC)⟩

/-- What every step preserves that meets its condition holds at the end of a run whose steps
all meet theirs. -/
theorem Each.exec_invariant {I : S → Prop} {C : S → Op → Prop}
    (hstep : ∀ s op s', I s → C s op → step s op = some s' → I s') :
    ∀ {ops : List Op} {s s' : S}, Each step C s ops → I s → exec step s ops = some s' → I s'
  | [], s, s', _, hs, h => by
    obtain rfl : s = s' := by simpa [exec] using h
    exact hs
  | op :: ops, s, s', ⟨hC, hrest⟩, hs, h => by
    obtain ⟨s₁, h₁, h'⟩ := Option.bind_eq_some_iff.1 h
    exact Each.exec_invariant hstep (hrest s₁ h₁) (hstep s op s₁ hs hC h₁) h'

/-- A run whose steps each take one off a measure is as long as the measure falls. -/
theorem Each.exec_length {I : S → Prop} {C : S → Op → Prop} {m : S → ℕ}
    (hstep : ∀ s op s', I s → C s op → step s op = some s' → I s' ∧ m s' + 1 = m s) :
    ∀ {ops : List Op} {s s' : S}, Each step C s ops → I s → exec step s ops = some s' →
      ops.length + m s' = m s
  | [], s, s', _, _, h => by
    obtain rfl : s = s' := by simpa [exec] using h
    rw [List.length_nil, Nat.zero_add]
  | op :: ops, s, s', ⟨hC, hrest⟩, hs, h => by
    obtain ⟨s₁, h₁, h'⟩ := Option.bind_eq_some_iff.1 h
    obtain ⟨hs₁, hm⟩ := hstep s op s₁ hs hC h₁
    have ih := Each.exec_length hstep (hrest s₁ h₁) hs₁ h'
    rw [List.length_cons]
    omega

/-- What a step that misses its condition brings about, and every later step preserves, holds
at the end of a run with such a step. -/
theorem exec_of_not_each {I B : S → Prop} {A C : S → Op → Prop}
    (hI : ∀ s op s', I s → A s op → step s op = some s' → I s')
    (hmiss : ∀ s op s', I s → A s op → ¬C s op → step s op = some s' → B s')
    (hkeep : ∀ s op s', I s → B s → A s op → step s op = some s' → B s') :
    ∀ {ops : List Op} {s s' : S}, I s → Each step A s ops → ¬Each step C s ops →
      exec step s ops = some s' → B s'
  | [], _, _, _, _, hC, _ => (hC trivial).elim
  | op :: ops, s, s', hs, ⟨hA, hrest⟩, hC, h => by
    obtain ⟨s₁, h₁, h'⟩ := Option.bind_eq_some_iff.1 h
    have hs₁ := hI s op s₁ hs hA h₁
    by_cases hop : C s op
    · refine exec_of_not_each hI hmiss hkeep hs₁ (hrest s₁ h₁) (fun hC' => hC ⟨hop, ?_⟩) h'
      intro s₂ h₂
      obtain rfl : s₁ = s₂ := by simpa [h₁] using h₂
      exact hC'
    · exact ((hrest s₁ h₁).exec_invariant (I := fun s => I s ∧ B s)
        (fun s op s' hIB hA hs => ⟨hI s op s' hIB.1 hA hs, hkeep s op s' hIB.1 hIB.2 hA hs⟩)
        ⟨hs₁, hmiss s op s₁ hs hA hop h₁⟩ h').2

/-- What every step preserves holds at the end of a run. -/
theorem exec_invariant {I : S → Prop} (hstep : ∀ s op s', I s → step s op = some s' → I s')
    {ops : List Op} {s s' : S} (hs : I s) (h : exec step s ops = some s') : I s' :=
  Each.exec_invariant (C := fun _ _ => True) (fun s op s' hI _ => hstep s op s' hI)
    (Each.of_forall_mem fun _ _ => trivial) hs h

/-! ## Runs with results -/

section Results

variable {A R : Type*}

/-- Run `ops` from `s` and list what the steps return; `none` if a step is undefined. -/
def trace (step : S → Op → Option (S × R)) : S → List Op → Option (S × List R)
  | s, [] => some (s, [])
  | s, op :: ops => (step s op).bind fun r => (trace step r.1 ops).map fun q => (q.1, r.2 :: q.2)

/-- What every step preserves holds at the end of a run. -/
theorem trace_invariant {step : S → Op → Option (S × R)} {I : S → Prop}
    (hstep : ∀ s op s' r, I s → step s op = some (s', r) → I s') :
    ∀ {ops : List Op} {s s' : S} {rs : List R}, I s → trace step s ops = some (s', rs) → I s'
  | [], s, s', rs, hs, h => by
    obtain ⟨rfl, -⟩ : s = s' ∧ [] = rs := by simpa [trace] using h
    exact hs
  | op :: ops, s, s', rs, hs, h => by
    obtain ⟨⟨s₁, r⟩, h₁, hrest⟩ := Option.bind_eq_some_iff.1 h
    obtain ⟨⟨s₂, rs₂⟩, h₂, heq⟩ := Option.map_eq_some_iff.1 hrest
    obtain ⟨rfl, -⟩ : s₂ = s' ∧ r :: rs₂ = rs := by simpa using heq
    exact trace_invariant hstep (hstep s op s₁ r hs h₁) h₂

/-- The refinement rule : a run whose steps all meet the condition returns what the run of the
specification returns. -/
theorem trace_of_simulates {step : S → Op → Option (S × R)} {abs : S → A}
    {spec : A → Op → Option (A × R)} {I : S → Prop} {C : A → Op → Prop}
    (hsim : ∀ s op, I s → C (abs s) op →
      ∃ s' r, step s op = some (s', r) ∧ spec (abs s) op = some (abs s', r) ∧ I s') :
    ∀ {ops : List Op} {s : S}, I s →
      Each (fun a op => (spec a op).map Prod.fst) C (abs s) ops →
      ∃ s' rs, trace step s ops = some (s', rs) ∧ trace spec (abs s) ops = some (abs s', rs) ∧
        I s'
  | [], s, hs, _ => ⟨s, [], rfl, rfl, hs⟩
  | op :: ops, s, hs, ⟨hC, hrest⟩ => by
    obtain ⟨s₁, r, h₁, hspec, hs₁⟩ := hsim s op hs hC
    obtain ⟨s', rs, h', hspec', hs'⟩ :=
      trace_of_simulates hsim hs₁ (hrest (abs s₁) (by simp [hspec]))
    exact ⟨s', r :: rs, by simp [trace, h₁, h'], by simp [trace, hspec, hspec'], hs'⟩

/-- The refinement rule where the condition speaks of the states of the system. -/
theorem trace_of_refines {step : S → Op → Option (S × R)} {abs : S → A}
    {spec : A → Op → Option (A × R)} {I : S → Prop} {C : S → Op → Prop}
    (hsim : ∀ s op, I s → C s op →
      ∃ s' r, step s op = some (s', r) ∧ spec (abs s) op = some (abs s', r) ∧ I s') :
    ∀ {ops : List Op} {s : S}, I s → Each (fun s op => (step s op).map Prod.fst) C s ops →
      ∃ s' rs, trace step s ops = some (s', rs) ∧ trace spec (abs s) ops = some (abs s', rs) ∧
        I s'
  | [], s, hs, _ => ⟨s, [], rfl, rfl, hs⟩
  | op :: ops, s, hs, ⟨hC, hrest⟩ => by
    obtain ⟨s₁, r, h₁, hspec, hs₁⟩ := hsim s op hs hC
    obtain ⟨s', rs, h', hspec', hs'⟩ := trace_of_refines hsim hs₁ (hrest s₁ (by simp [h₁]))
    exact ⟨s', r :: rs, by simp [trace, h₁, h'], by simp [trace, hspec, hspec'], hs'⟩

/-- Two systems, one step each. -/
def both (step : S → Op → Option (S × R)) (spec : A → Op → Option (A × R)) (x : S × A) (op : Op) :
    Option (S × A) :=
  (step x.1 op).bind fun r => (spec x.2 op).map fun q => (r.1, q.1)

/-- Conditions on each of the two runs. -/
theorem Each.both {step : S → Op → Option (S × R)} {spec : A → Op → Option (A × R)}
    {C : S → Op → Prop} {D : A → Op → Prop} :
    ∀ {ops : List Op} {s : S} {a : A}, Each (fun s op => (step s op).map Prod.fst) C s ops →
      Each (fun a op => (spec a op).map Prod.fst) D a ops →
      Each (both step spec) (fun x op => C x.1 op ∧ D x.2 op) (s, a) ops
  | [], _, _, _, _ => trivial
  | op :: ops, s, a, ⟨hC, hC'⟩, ⟨hD, hD'⟩ => by
    refine ⟨⟨hC, hD⟩, fun x hx => ?_⟩
    obtain ⟨r, hr, hrest⟩ := Option.bind_eq_some_iff.1 hx
    obtain ⟨q, hq, rfl⟩ := Option.map_eq_some_iff.1 hrest
    exact (hC' r.1 (Option.map_eq_some_iff.2 ⟨r, hr, rfl⟩)).both
      (hD' q.1 (Option.map_eq_some_iff.2 ⟨q, hq, rfl⟩))

/-- The refinement rule for a relation between the states. -/
theorem trace_of_relates {step : S → Op → Option (S × R)} {spec : A → Op → Option (A × R)}
    {I : S → A → Prop} {C : S × A → Op → Prop}
    (hsim : ∀ s a op, I s a → C (s, a) op →
      ∃ s' a' r, step s op = some (s', r) ∧ spec a op = some (a', r) ∧ I s' a') :
    ∀ {ops : List Op} {s : S} {a : A}, I s a → Each (both step spec) C (s, a) ops →
      ∃ s' a' rs, trace step s ops = some (s', rs) ∧ trace spec a ops = some (a', rs) ∧ I s' a'
  | [], s, a, hs, _ => ⟨s, a, [], rfl, rfl, hs⟩
  | op :: ops, s, a, hs, ⟨hC, hrest⟩ => by
    obtain ⟨s₁, a₁, r, h₁, hspec, hs₁⟩ := hsim s a op hs hC
    obtain ⟨s', a', rs, h', hspec', hs'⟩ :=
      trace_of_relates hsim hs₁ (hrest (s₁, a₁) (by simp [both, h₁, hspec]))
    exact ⟨s', a', r :: rs, by simp [trace, h₁, h'], by simp [trace, hspec, hspec'], hs'⟩

end Results

end Runs
