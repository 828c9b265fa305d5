import Agilefs.Runs
import Mathlib.Logic.Function.Basic
import Mathlib.Data.List.Infix

/-!
# The queue between producer and consumer

`producer_thread_fun` and `consumer_thread_fun` of `io/thread-mgr.c` on one buffer queue : a
ring of eight slots, two semaphores that count the free and the filled slots, and a mutex
that only the consumer takes. An event is one step of one thread, so a list of events is an
interleaving.

`QueueState.produced` records the pairs `get_one_chunk` gave the producer, `QueueState.handed` those
given to `put_new_chunk`. `queue_safe` : in every reachable state `handed` is a prefix of
`produced`, `head` and `tail` are inside the ring, and the slot the producer copies into is
neither waiting for the consumer nor being read by it.
-/

namespace Agilefs

open Function

/-- `BUFF_QUEUE_SIZE`. -/
def buffQueueSize : ℕ := 8

/-- `struct buffer_queue`, the semaphores by their values. -/
structure BufferQueue (H D : Type*) where
  empty : ℕ
  full : ℕ
  mutex : Bool
  head : ℕ
  tail : ℕ
  hk : ℕ → H
  cd : ℕ → D

/-- The next statement of `producer_thread_fun`. -/
inductive ProducerPc where
  | get
  | waitEmpty
  | copyData
  | copyKey
  | advance
  | postFull
  | setOver
  | stopped
  deriving DecidableEq

/-- The next statement of `consumer_thread_fun`. -/
inductive ConsumerPc where
  | waitFull
  | lock
  | copyKey
  | copyData
  | advance
  | unlock
  | postEmpty
  | put
  deriving DecidableEq

/-- The queue, the threads with their buffers, the flag `over`, and the pairs seen so far. -/
structure QueueState (H D : Type*) extends BufferQueue H D where
  ppc : ProducerPc
  pkey : H
  pdata : D
  cpc : ConsumerPc
  ckey : H
  cdata : D
  isOver : Bool
  produced : List (H × D)
  handed : List (H × D)

/-- One step of one thread; `got` and `eof` are the two ways `get_one_chunk` returns. -/
inductive QueueEvent (H D : Type*) where
  | got (key : H) (data : D)
  | eof
  | producer
  | consumer

variable {H D : Type*}

namespace QueueState

/-- A step of the producer after `get_one_chunk`. -/
def producerStep (s : QueueState H D) : Option (QueueState H D) :=
  match s.ppc with
  | .get => none
  | .waitEmpty => if s.empty = 0 then none
      else some { s with empty := s.empty - 1, ppc := .copyData }
  | .copyData => some { s with cd := update s.cd s.tail s.pdata, ppc := .copyKey }
  | .copyKey => some { s with hk := update s.hk s.tail s.pkey, ppc := .advance }
  | .advance => some { s with tail := (s.tail + 1) &&& (buffQueueSize - 1), ppc := .postFull }
  | .postFull => some { s with full := s.full + 1, ppc := .get }
  | .setOver => some { s with isOver := true, ppc := .stopped }
  | .stopped => none

/-- A step of the consumer. -/
def consumerStep (s : QueueState H D) : Option (QueueState H D) :=
  match s.cpc with
  | .waitFull => if s.full = 0 then none else some { s with full := s.full - 1, cpc := .lock }
  | .lock => if s.mutex then none else some { s with mutex := true, cpc := .copyKey }
  | .copyKey => some { s with ckey := s.hk s.head, cpc := .copyData }
  | .copyData => some { s with cdata := s.cd s.head, cpc := .advance }
  | .advance => some { s with head := (s.head + 1) &&& (buffQueueSize - 1), cpc := .unlock }
  | .unlock => some { s with mutex := false, cpc := .postEmpty }
  | .postEmpty => some { s with empty := s.empty + 1, cpc := .put }
  | .put => some { s with handed := s.handed ++ [(s.ckey, s.cdata)], cpc := .waitFull }

/-- One event; `none` if the thread cannot take the step now. -/
def step (s : QueueState H D) : QueueEvent H D → Option (QueueState H D)
  | .got key data =>
    if s.ppc = .get then
      some { s with pkey := key, pdata := data, ppc := .waitEmpty,
                    produced := s.produced ++ [(key, data)] }
    else none
  | .eof => if s.ppc = .get then some { s with ppc := .setOver } else none
  | .producer => s.producerStep
  | .consumer => s.consumerStep

/-- After `init_buffer_queue`, with both threads about to start. -/
structure Initial (s : QueueState H D) : Prop where
  empty : s.empty = 8
  full : s.full = 0
  mutex : s.mutex = false
  head : s.head = 0
  tail : s.tail = 0
  ppc : s.ppc = .get
  cpc : s.cpc = .waitFull
  isOver : s.isOver = false
  produced : s.produced = []
  handed : s.handed = []

end QueueState

/-! ## The invariant -/

namespace ProducerPc

/-- The producer has a pair that is not in the queue yet. -/
def pending : ProducerPc → ℕ
  | waitEmpty | copyData | copyKey | advance => 1
  | _ => 0

/-- The producer has taken a free slot and not put the pair in the queue yet. -/
def reserved : ProducerPc → ℕ
  | copyData | copyKey | advance => 1
  | _ => 0

/-- The producer has put a pair in the queue and not posted it yet. -/
def unposted : ProducerPc → ℕ
  | postFull => 1
  | _ => 0

end ProducerPc

namespace ConsumerPc

/-- The consumer was promised a pair and has not taken it out yet. -/
def claimed : ConsumerPc → ℕ
  | lock | copyKey | copyData | advance => 1
  | _ => 0

/-- The consumer has taken a pair out and not posted its slot yet. -/
def unposted : ConsumerPc → ℕ
  | unlock | postEmpty => 1
  | _ => 0

/-- The consumer has taken a pair out and not handed it on yet. -/
def taken : ConsumerPc → ℕ
  | unlock | postEmpty | put => 1
  | _ => 0

end ConsumerPc

namespace QueueState

/-- How many pairs were put in the queue. -/
def enq (s : QueueState H D) : ℕ := s.produced.length - s.ppc.pending

/-- How many pairs were taken out of the queue. -/
def deq (s : QueueState H D) : ℕ := s.handed.length + s.cpc.taken

/-- The producer's pair, and how much of it is in the slot at `tail`. -/
structure ProducerOk (s : QueueState H D) (enq : ℕ) : Prop where
  pair : s.ppc.pending = 1 → s.produced[enq]? = some (s.pkey, s.pdata)
  data : s.ppc = .copyKey ∨ s.ppc = .advance → s.cd (enq % 8) = s.pdata
  key : s.ppc = .advance → s.hk (enq % 8) = s.pkey

/-- How much of the pair at `head`, or of the pair just taken out, the consumer has. -/
structure ConsumerOk (s : QueueState H D) (deq : ℕ) : Prop where
  key : s.cpc = .copyData → (s.produced[deq]?).map Prod.fst = some s.ckey
  pair : s.cpc = .advance → s.produced[deq]? = some (s.ckey, s.cdata)
  taken : s.cpc.taken = 1 → s.produced[s.handed.length]? = some (s.ckey, s.cdata)

/-- What holds in every reachable state, with `enq` pairs put in and `deq` taken out. -/
structure Inv (s : QueueState H D) (enq deq : ℕ) : Prop where
  produced : s.produced.length = enq + s.ppc.pending
  handed : s.handed.length + s.cpc.taken = deq
  full : s.full + s.ppc.unposted + s.cpc.claimed + deq = enq
  empty : s.empty + s.ppc.reserved + s.cpc.unposted + enq = deq + 8
  tail : s.tail = enq % 8
  head : s.head = deq % 8
  slots : ∀ i, deq ≤ i → i < enq → s.produced[i]? = some (s.hk (i % 8), s.cd (i % 8))
  inOrder : s.handed <+: s.produced
  producer : s.ProducerOk enq
  consumer : s.ConsumerOk deq

/-- Advancing by masking. -/
theorem next_eq (n : ℕ) : (n % 8 + 1) &&& (buffQueueSize - 1) = (n + 1) % 8 :=
  (Nat.and_two_pow_sub_one_eq_mod (n % 8 + 1) 3).trans (Nat.mod_add_mod n 8 1)

theorem Initial.inv {s : QueueState H D} (h : s.Initial) : s.Inv 0 0 := by
  refine ⟨?_, ?_, ?_, ?_, ?_, ?_, ?_, ?_, ⟨?_, ?_, ?_⟩, ⟨?_, ?_, ?_⟩⟩ <;>
    simp [h.empty, h.full, h.head, h.tail, h.ppc, h.cpc, h.produced, h.handed,
      ProducerPc.pending, ProducerPc.reserved, ProducerPc.unposted, ConsumerPc.taken,
      ConsumerPc.claimed, ConsumerPc.unposted]

/-- The next element extends an initial segment. -/
theorem concat_isPrefix {α : Type*} {l l' : List α} {x : α} (h : l <+: l')
    (hx : l'[l.length]? = some x) : l ++ [x] <+: l' := by
  obtain ⟨t, rfl⟩ := h
  rw [List.getElem?_append_right le_rfl, Nat.sub_self] at hx
  obtain ⟨t', rfl⟩ : ∃ t', t = x :: t' := by
    cases t with
    | nil => simp at hx
    | cons y t' => exact ⟨t', by simpa using hx⟩
  exact ⟨t', by simp⟩

/-- Slots of different positions are different while at most eight are in use. -/
theorem slot_ne {i e d : ℕ} (hd : d ≤ i) (he : i < e) (hroom : e < d + 8) : i % 8 ≠ e % 8 := by
  omega

/-- What the consumer has does not depend on the producer's side. -/
theorem ConsumerOk.congr {s t : QueueState H D} {d : ℕ} (h : s.ConsumerOk d)
    (hproduced : t.produced = s.produced) (hhanded : t.handed = s.handed) (hcpc : t.cpc = s.cpc)
    (hkey : t.ckey = s.ckey) (hdata : t.cdata = s.cdata) : t.ConsumerOk d := by
  refine ⟨?_, ?_, ?_⟩
  · rw [hproduced, hcpc, hkey]
    exact h.key
  · rw [hproduced, hcpc, hkey, hdata]
    exact h.pair
  · rw [hproduced, hhanded, hcpc, hkey, hdata]
    exact h.taken

/-- What the producer has does not depend on the consumer's side. -/
theorem ProducerOk.congr {s t : QueueState H D} {e : ℕ} (h : s.ProducerOk e)
    (hproduced : t.produced = s.produced) (hppc : t.ppc = s.ppc) (hkey : t.pkey = s.pkey)
    (hdata : t.pdata = s.pdata) (hhk : t.hk = s.hk) (hcd : t.cd = s.cd) : t.ProducerOk e := by
  refine ⟨?_, ?_, ?_⟩
  · rw [hproduced, hppc, hkey, hdata]
    exact h.pair
  · rw [hppc, hdata, hcd]
    exact h.data
  · rw [hppc, hkey, hhk]
    exact h.key

/-- A step of the producer after `get_one_chunk`. -/
theorem Inv.of_producerStep {s s' : QueueState H D} {e d : ℕ} (h : s.Inv e d)
    (hs : s.producerStep = some s') : ∃ e', s'.Inv e' d := by
  obtain ⟨h₁, h₂, h₃, h₄, h₅, h₆, h₇, h₈, ⟨p₁, p₂, p₃⟩, hcons⟩ := h
  cases hpc : s.ppc <;> simp only [producerStep, hpc] at hs <;>
    simp only [hpc, ProducerPc.pending, ProducerPc.reserved, ProducerPc.unposted]
      at h₁ h₃ h₄ p₁ p₂ p₃
  case get | stopped => simp at hs
  case waitEmpty =>
    split_ifs at hs with hz
    obtain rfl := Option.some.inj hs
    refine ⟨e, ⟨h₁, h₂, h₃, ?_, h₅, h₆, h₇, h₈, ⟨fun _ => p₁ trivial, by simp, by simp⟩,
      hcons.congr rfl rfl rfl rfl rfl⟩⟩
    simp only [ProducerPc.reserved]
    omega
  case copyData =>
    obtain rfl := Option.some.inj hs
    refine ⟨e, ⟨h₁, h₂, h₃, h₄, h₅, h₆, fun i hd he => ?_, h₈, ⟨fun _ => p₁ trivial, ?_, by simp⟩,
      hcons.congr rfl rfl rfl rfl rfl⟩⟩
    · simp only [h₅, update_of_ne (slot_ne hd he (by omega))]
      exact h₇ i hd he
    · simp [h₅]
  case copyKey =>
    obtain rfl := Option.some.inj hs
    refine ⟨e, ⟨h₁, h₂, h₃, h₄, h₅, h₆, fun i hd he => ?_, h₈,
      ⟨fun _ => p₁ trivial, fun _ => p₂ (by simp), ?_⟩, hcons.congr rfl rfl rfl rfl rfl⟩⟩
    · simp only [h₅, update_of_ne (slot_ne hd he (by omega))]
      exact h₇ i hd he
    · simp [h₅]
  case advance =>
    obtain rfl := Option.some.inj hs
    refine ⟨e + 1, ⟨h₁, h₂, ?_, ?_, ?_, h₆, fun i hd he => ?_, h₈, ⟨by simp [ProducerPc.pending],
      by simp, by simp⟩, hcons.congr rfl rfl rfl rfl rfl⟩⟩
    · simp only [ProducerPc.unposted]
      omega
    · simp only [ProducerPc.reserved]
      omega
    · simp only [h₅, next_eq]
    · -- the pair at hand is the one at the new last position
      rcases Nat.lt_succ_iff_lt_or_eq.1 he with he | rfl
      · exact h₇ i hd he
      · simp only [p₁, p₂, p₃, or_true]
  case postFull =>
    obtain rfl := Option.some.inj hs
    refine ⟨e, ⟨h₁, h₂, ?_, h₄, h₅, h₆, h₇, h₈, ⟨by simp [ProducerPc.pending], by simp, by simp⟩,
      hcons.congr rfl rfl rfl rfl rfl⟩⟩
    simp only [ProducerPc.unposted]
    omega
  case setOver =>
    obtain rfl := Option.some.inj hs
    exact ⟨e, ⟨h₁, h₂, h₃, h₄, h₅, h₆, h₇, h₈, ⟨by simp [ProducerPc.pending], by simp, by simp⟩,
      hcons.congr rfl rfl rfl rfl rfl⟩⟩

/-- A step of the consumer. -/
theorem Inv.of_consumerStep {s s' : QueueState H D} {e d : ℕ} (h : s.Inv e d)
    (hs : s.consumerStep = some s') : ∃ d', s'.Inv e d' := by
  obtain ⟨h₁, h₂, h₃, h₄, h₅, h₆, h₇, h₈, hprod, ⟨c₁, c₂, c₃⟩⟩ := h
  cases hpc : s.cpc <;> simp only [consumerStep, hpc] at hs <;>
    simp only [hpc, ConsumerPc.claimed, ConsumerPc.unposted, ConsumerPc.taken]
      at h₂ h₃ h₄ c₁ c₂ c₃
  case waitFull =>
    split_ifs at hs with hz
    obtain rfl := Option.some.inj hs
    refine ⟨d, ⟨h₁, h₂, ?_, h₄, h₅, h₆, h₇, h₈, hprod.congr rfl rfl rfl rfl rfl rfl,
      ⟨by simp, by simp, by simp [ConsumerPc.taken]⟩⟩⟩
    simp only [ConsumerPc.claimed]
    omega
  case lock =>
    split_ifs at hs with hz
    obtain rfl := Option.some.inj hs
    exact ⟨d, ⟨h₁, h₂, h₃, h₄, h₅, h₆, h₇, h₈, hprod.congr rfl rfl rfl rfl rfl rfl,
      ⟨by simp, by simp, by simp [ConsumerPc.taken]⟩⟩⟩
  case copyKey =>
    obtain rfl := Option.some.inj hs
    refine ⟨d, ⟨h₁, h₂, h₃, h₄, h₅, h₆, h₇, h₈, hprod.congr rfl rfl rfl rfl rfl rfl,
      ⟨fun _ => ?_, by simp, by simp [ConsumerPc.taken]⟩⟩⟩
    simp [h₇ d le_rfl (by omega), h₆]
  case copyData =>
    obtain rfl := Option.some.inj hs
    refine ⟨d, ⟨h₁, h₂, h₃, h₄, h₅, h₆, h₇, h₈, hprod.congr rfl rfl rfl rfl rfl rfl,
      ⟨by simp, fun _ => ?_, by simp [ConsumerPc.taken]⟩⟩⟩
    have hslot := h₇ d le_rfl (by omega)
    have hkey := c₁ trivial
    rw [hslot] at hkey ⊢
    simp_all
  case advance =>
    obtain rfl := Option.some.inj hs
    refine ⟨d + 1, ⟨h₁, ?_, ?_, ?_, h₅, ?_, fun i hd he => h₇ i (by omega) he, h₈,
      hprod.congr rfl rfl rfl rfl rfl rfl, ⟨by simp, by simp, fun _ => ?_⟩⟩⟩
    · simp only [ConsumerPc.taken]
      omega
    · simp only [ConsumerPc.claimed]
      omega
    · simp only [ConsumerPc.unposted]
      omega
    · simp only [h₆, next_eq]
    · obtain rfl : s.handed.length = d := h₂
      exact c₂ trivial
  case unlock =>
    obtain rfl := Option.some.inj hs
    exact ⟨d, ⟨h₁, h₂, h₃, h₄, h₅, h₆, h₇, h₈, hprod.congr rfl rfl rfl rfl rfl rfl,
      ⟨by simp, by simp, fun _ => c₃ trivial⟩⟩⟩
  case postEmpty =>
    obtain rfl := Option.some.inj hs
    refine ⟨d, ⟨h₁, h₂, h₃, ?_, h₅, h₆, h₇, h₈, hprod.congr rfl rfl rfl rfl rfl rfl,
      ⟨by simp, by simp, fun _ => c₃ trivial⟩⟩⟩
    simp only [ConsumerPc.unposted]
    omega
  case put =>
    obtain rfl := Option.some.inj hs
    refine ⟨d, ⟨h₁, ?_, h₃, h₄, h₅, h₆, h₇, ?_, hprod.congr rfl rfl rfl rfl rfl rfl,
      ⟨by simp, by simp, by simp [ConsumerPc.taken]⟩⟩⟩
    · simpa [ConsumerPc.taken] using h₂
    · exact concat_isPrefix h₈ (c₃ trivial)

/-- The pair `get_one_chunk` returns is the last one produced. -/
theorem Inv.got {s : QueueState H D} {e d : ℕ} (h : s.Inv e d) (hpc : s.ppc = .get) (key : H)
    (data : D) :
    ({ s with pkey := key, pdata := data, ppc := .waitEmpty,
              produced := s.produced ++ [(key, data)] } : QueueState H D).Inv e d := by
  obtain ⟨h₁, h₂, h₃, h₄, h₅, h₆, h₇, h₈, hprod, ⟨c₁, c₂, c₃⟩⟩ := h
  simp only [hpc, ProducerPc.pending, ProducerPc.reserved, ProducerPc.unposted] at h₁ h₃ h₄
  have hold : ∀ {i : ℕ} {x : H × D}, s.produced[i]? = some x →
      (s.produced ++ [(key, data)])[i]? = some x := by
    intro i x hx
    rw [List.getElem?_append_left (List.getElem?_eq_some_iff.1 hx).1, hx]
  refine ⟨by simp [h₁, ProducerPc.pending], h₂, h₃, h₄, h₅, h₆, fun i hd he => hold (h₇ i hd he),
    h₈.trans (List.prefix_append _ _), ⟨fun _ => ?_, by simp, by simp⟩,
    ⟨fun hc => ?_, fun hc => hold (c₂ hc), fun hc => hold (c₃ hc)⟩⟩
  · have hlen : s.produced.length = e := h₁
    simp [← hlen]
  · obtain ⟨x, hx, hfst⟩ := Option.map_eq_some_iff.1 (c₁ hc)
    exact Option.map_eq_some_iff.2 ⟨x, hold hx, hfst⟩

/-- Every event keeps the invariant. -/
theorem inv_step {s s' : QueueState H D} {ev : QueueEvent H D} (h : ∃ e d, s.Inv e d)
    (hs : s.step ev = some s') : ∃ e d, s'.Inv e d := by
  obtain ⟨e, d, h⟩ := h
  cases ev with
  | got key data =>
    simp only [step] at hs
    split_ifs at hs with hpc
    obtain rfl := Option.some.inj hs
    exact ⟨e, d, h.got hpc key data⟩
  | eof =>
    simp only [step] at hs
    split_ifs at hs with hpc
    obtain rfl := Option.some.inj hs
    obtain ⟨h₁, h₂, h₃, h₄, h₅, h₆, h₇, h₈, hprod, ⟨c₁, c₂, c₃⟩⟩ := h
    simp only [hpc, ProducerPc.pending, ProducerPc.reserved, ProducerPc.unposted] at h₁ h₃ h₄
    exact ⟨e, d, h₁, h₂, h₃, h₄, h₅, h₆, h₇, h₈, ⟨by simp [ProducerPc.pending], by simp, by simp⟩,
      ⟨c₁, c₂, c₃⟩⟩
  | producer =>
    obtain ⟨e', h'⟩ := h.of_producerStep hs
    exact ⟨e', d, h'⟩
  | consumer =>
    obtain ⟨d', h'⟩ := h.of_consumerStep hs
    exact ⟨e, d', h'⟩

theorem inv_exec {s₀ s : QueueState H D} (h₀ : s₀.Initial) {evs : List (QueueEvent H D)}
    (h : Runs.exec step s₀ evs = some s) : ∃ e d, s.Inv e d :=
  Runs.exec_invariant (fun _ _ _ hi hs => inv_step hi hs) ⟨0, 0, h₀.inv⟩ h

/-! ## Safety -/

/-- The slot at `j` holds a pair that was put in the queue and not taken out. -/
def Unconsumed (s : QueueState H D) (j : ℕ) : Prop :=
  ∃ i, s.deq ≤ i ∧ i < s.enq ∧ i % 8 = j

/-- The producer is copying into the slot at `tail`. -/
def ProducerCopies (s : QueueState H D) : Prop :=
  s.ppc = .copyData ∨ s.ppc = .copyKey

/-- The consumer is copying out of the slot at `head`. -/
def ConsumerCopies (s : QueueState H D) : Prop :=
  s.cpc = .copyKey ∨ s.cpc = .copyData

/-- The queue loses, duplicates and reorders nothing, whatever the interleaving. -/
theorem queue_safe {s₀ s : QueueState H D} (h₀ : s₀.Initial) {evs : List (QueueEvent H D)}
    (h : Runs.exec step s₀ evs = some s) :
    s.handed <+: s.produced ∧ s.head < 8 ∧ s.tail < 8 ∧
      (s.ProducerCopies → ¬s.Unconsumed s.tail ∧ (s.ConsumerCopies → s.tail ≠ s.head)) := by
  obtain ⟨e, d, hinv⟩ := inv_exec h₀ h
  have hfull := hinv.full
  have hempty := hinv.empty
  have henq : s.enq = e := by
    have := hinv.produced
    unfold enq
    omega
  have hdeq : s.deq = d := hinv.handed
  refine ⟨hinv.inOrder, ?_, ?_, fun hp => ?_⟩
  · rw [hinv.head]
    exact Nat.mod_lt _ (by omega)
  · rw [hinv.tail]
    exact Nat.mod_lt _ (by omega)
  · have hres : s.ppc.reserved = 1 := by
      rcases hp with hp | hp <;> rw [hp] <;> rfl
    rw [hinv.tail, hinv.head]
    refine ⟨?_, fun hc => ?_⟩
    · rintro ⟨i, hd, he, hi⟩
      exact slot_ne (by omega) (by omega) (by omega : e < d + 8) hi
    · have hclaim : s.cpc.claimed = 1 := by
        rcases hc with hc | hc <;> rw [hc] <;> rfl
      omega

/-- An empty queue of numbers. -/
def start : QueueState ℕ ℕ where
  empty := 8
  full := 0
  mutex := false
  head := 0
  tail := 0
  hk _ := 0
  cd _ := 0
  ppc := .get
  pkey := 0
  pdata := 0
  cpc := .waitFull
  ckey := 0
  cdata := 0
  isOver := false
  produced := []
  handed := []

theorem initial_start : start.Initial :=
  ⟨rfl, rfl, rfl, rfl, rfl, rfl, rfl, rfl, rfl, rfl⟩

/-- One pair goes through the queue. -/
theorem queue_safe_one :
    ∃ s, Runs.exec step start (.got 1 2 :: .replicate 5 .producer ++ .replicate 8 .consumer) =
        some s ∧ s.handed = [(1, 2)] ∧
      (s.handed <+: s.produced ∧ s.head < 8 ∧ s.tail < 8 ∧
        (s.ProducerCopies → ¬s.Unconsumed s.tail ∧ (s.ConsumerCopies → s.tail ≠ s.head))) := by
  have hrun : (Runs.exec step start
      (.got 1 2 :: .replicate 5 .producer ++ .replicate 8 .consumer)).map (fun s => s.handed) =
        some [(1, 2)] := rfl
  obtain ⟨s, hs, hhanded⟩ := Option.map_eq_some_iff.1 hrun
  exact ⟨s, hs, hhanded, queue_safe initial_start hs⟩

end QueueState

end Agilefs
