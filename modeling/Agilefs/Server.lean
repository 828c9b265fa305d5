import Agilefs.BufferQueue

/-!
# The server

`main` of `agilefs-server` next to its producer and its consumer. The `if (ret != 0)` in
`main` has no statement of its own, so it takes the loop `while (!over);` that follows :
with `ret = 0`, the value of a successful `thread_io_start`, `main` does not wait.

`released_drained_iff` : `main` reaches `release_chunk_file` only with every chunk stored
if and only if the input has none. For an input with chunks this is left to the schedule :
it holds in the runs in which `main` executes the `if` after the producer has set `over`,
with nothing in the queue and the consumer back at its `sem_wait`.
-/

namespace Agilefs

/-- The next statement of `main`. -/
inductive MainPc where
  | test
  | spin
  | close
  | release
  | finished
  deriving DecidableEq

/-- The server once `thread_io_start` has returned `ret`. `input` are the blocks of the input
file not read yet. -/
structure Server (B H D : Type*) where
  queue : QueueState H D
  input : List B
  fdOpen : Bool
  ret : ℤ
  mpc : MainPc

/-- One step of one thread. -/
inductive ServerEvent where
  | main
  | read
  | producer
  | consumer

variable {B H D : Type*}

namespace Server

/-- A step of `main`. -/
def mainStep (s : Server B H D) : Option (Server B H D) :=
  match s.mpc with
  | .test => some { s with mpc := if s.ret ≠ 0 then .spin else .close }
  | .spin => some { s with mpc := if s.queue.isOver then .close else .spin }
  | .close => some { s with fdOpen := false, mpc := .release }
  | .release => some { s with mpc := .finished }
  | .finished => none

/-- The call of `get_one_chunk`, which gives `pair b` for the block `b` and fails once the file
is closed. A pair for any queue but the only one has no meaning. -/
def readStep (pair : B → H × D) (hashToIndex : H → ℤ) (s : Server B H D) :
    Option (Server B H D) :=
  match s.fdOpen, s.input with
  | true, b :: bs =>
    if hashToIndex (pair b).1 = 0 then
      (s.queue.step (.got (pair b).1 (pair b).2)).map fun q => { s with queue := q, input := bs }
    else none
  | _, _ => (s.queue.step .eof).map fun q => { s with queue := q }

/-- One event. -/
def step (pair : B → H × D) (hashToIndex : H → ℤ) (s : Server B H D) :
    ServerEvent → Option (Server B H D)
  | .main => s.mainStep
  | .read => s.readStep pair hashToIndex
  | .producer => (s.queue.step .producer).map fun q => { s with queue := q }
  | .consumer => (s.queue.step .consumer).map fun q => { s with queue := q }

/-- The state in which `thread_io_start` returns `0`. -/
def started (queue : QueueState H D) (input : List B) : Server B H D where
  queue := queue
  input := input
  fdOpen := true
  ret := 0
  mpc := .test

/-- `main` has reached `release_chunk_file`. -/
def Releases (s : Server B H D) : Prop :=
  s.mpc = .release ∨ s.mpc = .finished

/-- The input is read, the queue is empty, and every pair put in the queue was stored. -/
structure Drained (s : Server B H D) : Prop where
  input : s.input = []
  queue : s.queue.enq = s.queue.deq
  stored : s.queue.handed.length = s.queue.enq

/-- The producer has set `over`, and the consumer waits at an empty queue. -/
structure Quiet (q : QueueState H D) : Prop where
  isOver : q.isOver = true
  full : q.full = 0
  waits : q.cpc = .waitFull

/-- If the step is the `if` of `main`, it is taken in a quiet state. -/
def TestsQuiet (s : Server B H D) : ServerEvent → Prop
  | .main => s.mpc = .test → Quiet s.queue
  | _ => True

end Server

/-! ## The queue at rest -/

namespace QueueState

/-- `get_one_chunk` alone adds to what was produced. -/
theorem produced_eq_of_step {q q' : QueueState H D} {ev : QueueEvent H D}
    (h : q.step ev = some q') (hev : ∀ key data, ev ≠ .got key data) :
    q'.produced = q.produced := by
  cases ev with
  | got key data => exact (hev key data rfl).elim
  | eof =>
    simp only [step] at h
    split_ifs at h
    rw [← Option.some.inj h]
  | producer =>
    simp only [step, producerStep] at h
    split at h <;> (try split_ifs at h) <;> simp only [Option.some.injEq, reduceCtorEq] at h <;>
      rw [← h]
  | consumer =>
    simp only [step, consumerStep] at h
    split at h <;> (try split_ifs at h) <;> simp only [Option.some.injEq] at h <;>
      rw [← h]

/-- Only the producer's last step sets `over`. -/
theorem stopped_of_step {q q' : QueueState H D} {ev : QueueEvent H D}
    (hq : q.isOver = true → q.ppc = .stopped) (h : q.step ev = some q') :
    q'.isOver = true → q'.ppc = .stopped := by
  cases ev with
  | got key data | eof =>
    simp only [step] at h
    split_ifs at h with hpc
    obtain rfl := Option.some.inj h
    intro ho
    simp [hq ho] at hpc
  | producer =>
    simp only [step, producerStep] at h
    split at h <;> (try split_ifs at h) <;> simp only [Option.some.injEq, reduceCtorEq] at h <;>
      subst h <;> simp_all
  | consumer =>
    simp only [step, consumerStep] at h
    split at h <;> (try split_ifs at h) <;> simp only [Option.some.injEq] at h <;>
      subst h <;> simp_all

/-- The producer ends after `get_one_chunk` has returned no chunk. -/
theorem ended_of_step {q q' : QueueState H D} {ev : QueueEvent H D} (h : q.step ev = some q')
    (hq' : q'.ppc = .setOver ∨ q'.ppc = .stopped) :
    ev = .eof ∨ ((ev = .producer ∨ ev = .consumer) ∧ (q.ppc = .setOver ∨ q.ppc = .stopped)) := by
  cases ev with
  | got key data =>
    simp only [step] at h
    split_ifs at h
    obtain rfl := Option.some.inj h
    simp at hq'
  | eof => exact Or.inl rfl
  | producer =>
    simp only [step, producerStep] at h
    split at h <;> (try split_ifs at h) <;> simp only [Option.some.injEq, reduceCtorEq] at h <;>
      subst h <;> simp_all
  | consumer =>
    simp only [step, consumerStep] at h
    split at h <;> (try split_ifs at h) <;> simp only [Option.some.injEq] at h <;>
      subst h <;> exact Or.inr ⟨Or.inr rfl, hq'⟩

end QueueState

namespace Server

/-- A quiet queue takes no step. -/
theorem Quiet.stuck {q : QueueState H D} (h : Quiet q) (hq : q.isOver = true → q.ppc = .stopped)
    (ev : QueueEvent H D) : q.step ev = none := by
  have hpc := hq h.isOver
  cases ev <;> simp [QueueState.step, QueueState.producerStep, QueueState.consumerStep, hpc,
    h.waits, h.full]

theorem Quiet.drained {s : Server B H D} (h : Quiet s.queue)
    (hq : s.queue.isOver = true → s.queue.ppc = .stopped) (hinput : s.input = []) {e d : ℕ}
    (hinv : s.queue.Inv e d) : s.Drained := by
  have hprod := hinv.produced
  have hhand := hinv.handed
  have hfull := hinv.full
  simp only [hq h.isOver, h.waits, h.full, ProducerPc.pending, ProducerPc.unposted,
    ConsumerPc.taken, ConsumerPc.claimed] at hprod hhand hfull
  refine ⟨hinput, ?_, ?_⟩ <;>
    simp only [QueueState.enq, QueueState.deq, hq h.isOver, h.waits, ProducerPc.pending,
      ConsumerPc.taken] <;> omega

variable {pair : B → H × D} {hashToIndex : H → ℤ}

/-- `main` never returns to its test, and it only closes the input. -/
theorem mainStep_spec {s s' : Server B H D} (h : s.mainStep = some s') :
    s'.mpc ≠ .test ∧ s'.ret = s.ret ∧ (s'.fdOpen = true → s.fdOpen = true) := by
  simp only [mainStep] at h
  split at h <;> simp only [Option.some.injEq, reduceCtorEq] at h <;> subst h <;>
    refine ⟨?_, rfl, by simp⟩
  · split_ifs <;> simp
  · split_ifs <;> simp
  · simp
  · simp

/-- What every run keeps. -/
structure Running (s : Server B H D) : Prop where
  inv : ∃ e d, s.queue.Inv e d
  isOver : s.queue.isOver = true → s.queue.ppc = .stopped
  ended : s.queue.ppc = .setOver ∨ s.queue.ppc = .stopped → s.fdOpen = true → s.input = []
  fdOpen : s.mpc = .test → s.fdOpen = true
  ret : s.ret = 0

theorem running_started {q₀ : QueueState H D} (h₀ : q₀.Initial) (input : List B) :
    (started q₀ input).Running := by
  refine ⟨⟨0, 0, h₀.inv⟩, ?_, ?_, fun _ => rfl, rfl⟩ <;> simp [started, h₀.isOver, h₀.ppc]

/-- A step of one of the threads, seen from the queue. -/
theorem step_cases {s s' : Server B H D} {ev : ServerEvent}
    (h : s.step pair hashToIndex ev = some s') :
    (ev = .main ∧ s'.queue = s.queue ∧ s'.input = s.input) ∨
    ∃ qev, s.queue.step qev = some s'.queue ∧ s'.mpc = s.mpc ∧ s'.ret = s.ret ∧
      s'.fdOpen = s.fdOpen ∧
      ((∃ b bs, s.input = b :: bs ∧ qev = .got (pair b).1 (pair b).2 ∧ s'.input = bs) ∨
        (qev = .eof ∧ s'.input = s.input ∧ (s.fdOpen = true → s.input = [])) ∨
        ((qev = .producer ∨ qev = .consumer) ∧ s'.input = s.input)) := by
  cases ev with
  | main =>
    refine Or.inl ⟨rfl, ?_⟩
    simp only [step, mainStep] at h
    split at h <;> simp only [Option.some.injEq, reduceCtorEq] at h <;> subst h <;> exact ⟨rfl, rfl⟩
  | read =>
    simp only [step, readStep] at h
    split at h
    · rename_i b bs hopen hinput
      split_ifs at h
      obtain ⟨q, hq, rfl⟩ := Option.map_eq_some_iff.1 h
      exact Or.inr ⟨_, hq, rfl, rfl, rfl, Or.inl ⟨b, bs, hinput, rfl, rfl⟩⟩
    · rename_i hne
      obtain ⟨q, hq, rfl⟩ := Option.map_eq_some_iff.1 h
      refine Or.inr ⟨_, hq, rfl, rfl, rfl, Or.inr (Or.inl ⟨rfl, rfl, fun hopen => ?_⟩)⟩
      cases hinput : s.input with
      | nil => rfl
      | cons b bs => exact (hne b bs hopen hinput).elim
  | producer =>
    obtain ⟨q, hq, rfl⟩ := Option.map_eq_some_iff.1 h
    exact Or.inr ⟨_, hq, rfl, rfl, rfl, Or.inr (Or.inr ⟨Or.inl rfl, rfl⟩)⟩
  | consumer =>
    obtain ⟨q, hq, rfl⟩ := Option.map_eq_some_iff.1 h
    exact Or.inr ⟨_, hq, rfl, rfl, rfl, Or.inr (Or.inr ⟨Or.inr rfl, rfl⟩)⟩

theorem Running.step {s s' : Server B H D} {ev : ServerEvent} (h : s.Running)
    (hs : s.step pair hashToIndex ev = some s') : s'.Running := by
  rcases step_cases hs with ⟨rfl, hq, hin⟩ | ⟨qev, hq, hmpc, hret, hopen, hcases⟩
  · obtain ⟨hpc, hret, hopen⟩ := mainStep_spec hs
    refine ⟨by rw [hq]; exact h.inv, by rw [hq]; exact h.isOver, fun hend ho => ?_,
      fun hpc' => (hpc hpc').elim, hret.trans h.ret⟩
    rw [hin]
    exact h.ended (by rwa [hq] at hend) (hopen ho)
  · refine ⟨QueueState.inv_step h.inv hq, QueueState.stopped_of_step h.isOver hq,
      fun hend ho => ?_, by rw [hmpc, hopen]; exact h.fdOpen, hret.trans h.ret⟩
    rw [hopen] at ho
    rcases QueueState.ended_of_step hq hend with rfl | ⟨hev, hold⟩
    · simp only [reduceCtorEq, false_and, and_false, exists_false, false_or, or_self, or_false,
        true_and] at hcases
      rw [hcases.1]
      exact hcases.2 ho
    · have hin : s'.input = s.input := by
        rcases hcases with ⟨b, bs, -, rfl, -⟩ | ⟨rfl, hin, -⟩ | ⟨-, hin⟩
        · simp at hev
        · exact hin
        · exact hin
      rw [hin]
      exact h.ended hold ho

/-- What a run keeps in which `main` tests in quiet states only. -/
theorem Running.quiet_step {s s' : Server B H D} {ev : ServerEvent} (h : s.Running)
    (hquiet : s.mpc ≠ .test → Quiet s.queue ∧ s.input = []) (hC : s.TestsQuiet ev)
    (hs : s.step pair hashToIndex ev = some s') :
    s'.mpc ≠ .test → Quiet s'.queue ∧ s'.input = [] := by
  rcases step_cases hs with ⟨rfl, hq, hin⟩ | ⟨qev, hq, hmpc, -, -, -⟩
  · rw [hq, hin]
    intro _
    by_cases hpc : s.mpc = .test
    · have hQ := hC hpc
      exact ⟨hQ, h.ended (Or.inr (h.isOver hQ.isOver)) (h.fdOpen hpc)⟩
    · exact hquiet hpc
  · rw [hmpc]
    intro hpc
    rw [(hquiet hpc).1.stuck h.isOver qev] at hq
    exact (Option.some_ne_none _ hq.symm).elim

/-- In a run in which `main` tests in quiet states only, it releases drained. -/
theorem drained_of_testsQuiet {q₀ : QueueState H D} (h₀ : q₀.Initial) (input : List B)
    {evs : List ServerEvent} {s : Server B H D}
    (hC : Runs.Each (step pair hashToIndex) TestsQuiet (started q₀ input) evs)
    (hs : Runs.exec (step pair hashToIndex) (started q₀ input) evs = some s)
    (hrel : s.Releases) : s.Drained := by
  obtain ⟨hrun, hquiet⟩ := Runs.Each.exec_invariant
    (I := fun s => s.Running ∧ (s.mpc ≠ .test → Quiet s.queue ∧ s.input = []))
    (fun _ _ _ hI hC hs => ⟨hI.1.step hs, hI.1.quiet_step hI.2 hC hs⟩) hC
    ⟨running_started h₀ input, fun h => (h rfl).elim⟩ hs
  obtain ⟨e, d, hinv⟩ := hrun.inv
  obtain ⟨hQ, hin⟩ := hquiet (by rcases hrel with h | h <;> rw [h] <;> simp)
  exact hQ.drained hrun.isOver hin hinv

/-- With no chunk in the input nothing is ever produced. -/
theorem drained_of_input_nil {q₀ : QueueState H D} (h₀ : q₀.Initial) {evs : List ServerEvent}
    {s : Server B H D}
    (hs : Runs.exec (step pair hashToIndex) (started q₀ ([] : List B)) evs = some s) :
    s.Drained := by
  obtain ⟨hrun, hin, hprod⟩ := Runs.exec_invariant
    (I := fun s : Server B H D => s.Running ∧ s.input = [] ∧ s.queue.produced = [])
    (fun s ev s' hI hs => by
      obtain ⟨hrun, hin, hprod⟩ := hI
      refine ⟨hrun.step hs, ?_⟩
      rcases step_cases hs with ⟨-, hq, hin'⟩ | ⟨qev, hq, -, -, -, hcases⟩
      · rw [hq, hin']
        exact ⟨hin, hprod⟩
      · have hstep := QueueState.produced_eq_of_step hq
        rcases hcases with ⟨b, bs, hin', -, -⟩ | ⟨rfl, hin', -⟩ | ⟨hev, hin'⟩
        · simp [hin] at hin'
        · exact ⟨hin'.trans hin, (hstep (by simp)).trans hprod⟩
        · refine ⟨hin'.trans hin, (hstep fun key data h => ?_).trans hprod⟩
          rcases hev with rfl | rfl <;> cases h)
    ⟨running_started h₀ [], rfl, h₀.produced⟩ hs
  obtain ⟨e, d, hinv⟩ := hrun.inv
  have hlen := hinv.produced
  have hhand := hinv.handed
  have hfull := hinv.full
  simp only [hprod, List.length_nil] at hlen
  refine ⟨hin, ?_, ?_⟩ <;> simp only [QueueState.enq, QueueState.deq, hprod, List.length_nil] <;>
    omega

/-- `main` releases the store drained, whatever the schedule, if and only if the input has no
chunk; and whatever the input, in each run in which it tests in quiet states only. -/
theorem released_drained_iff (pair : B → H × D) (hashToIndex : H → ℤ) {q₀ : QueueState H D}
    (h₀ : q₀.Initial) (input : List B) :
    ((∀ evs s, Runs.exec (step pair hashToIndex) (started q₀ input) evs = some s →
      s.Releases → s.Drained) ↔ input = []) ∧
    ∀ evs, Runs.Each (step pair hashToIndex) TestsQuiet (started q₀ input) evs →
      ∀ s, Runs.exec (step pair hashToIndex) (started q₀ input) evs = some s →
        s.Releases → s.Drained := by
  refine ⟨⟨fun h => ?_, ?_⟩, fun evs hC s hs hrel => drained_of_testsQuiet h₀ input hC hs hrel⟩
  · -- `main` runs alone
    exact (h [.main, .main] _ rfl (Or.inl rfl)).input
  · rintro rfl
    exact fun evs s hs _ => drained_of_input_nil h₀ hs

/-- The two parts for an input of one chunk. -/
theorem released_drained_iff_one :
    ((∀ evs s, Runs.exec (step (fun b : ℕ => (b, b)) fun _ => 0) (started .start [5]) evs = some s →
      s.Releases → s.Drained) ↔ [5] = []) ∧
    ∀ evs, Runs.Each (step (fun b : ℕ => (b, b)) fun _ => 0) TestsQuiet (started .start [5]) evs →
      ∀ s, Runs.exec (step (fun b : ℕ => (b, b)) fun _ => 0) (started .start [5]) evs = some s →
        s.Releases → s.Drained :=
  released_drained_iff _ _ QueueState.initial_start [5]

/-- `main` closes the input and releases the store before the first chunk is read. -/
theorem released_counterexample :
    ∃ s : Server ℕ ℕ ℕ, Runs.exec (step (fun b => (b, b)) fun _ => 0) (started .start [5])
      [.main, .main] = some s ∧ s.Releases ∧ s.input = [5] ∧ ¬s.Drained :=
  ⟨_, rfl, Or.inl rfl, rfl, fun h => List.cons_ne_nil _ _ h.input⟩

end Server

end Agilefs
