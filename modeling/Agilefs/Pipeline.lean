import Agilefs.Server
import Agilefs.ChunkChoice
import Mathlib.Algebra.BigOperators.Group.Finset.Piecewise
import Mathlib.Algebra.Order.BigOperators.Group.Finset

/-!
# The server and its store

The threads of `Server` with the chunk store behind `put_new_chunk`. The call is one step, which
the consumer takes where it hands a pair on; the transfers and the database calls in it may fail.
`release_chunk_file` frees what the call uses, so a call that has not returned by then has no
meaning. `get_one_chunk` is any function that `tio_ops` may hold : it gives a pair for each block.

`pipeline_ingests` : in every state the threads can reach, the store is what the calls that
returned make of it one after the other, and these are calls for the first blocks of the input.
`pipeline_ends` : no schedule goes on for ever, and without steps of `main` none ends before every
block was handed on.
-/

namespace Agilefs

/-- The server next to its store, with the calls of `put_new_chunk` so far and what they
returned. -/
structure Pipeline (B K P : Type*) where
  server : Server B K Block
  store : Store K P
  calls : List (PutCall K)
  rets : List (K × ℤ)

/-- One step of one thread. `o` is how the calls inside `put_new_chunk` end. -/
inductive PipelineEvent where
  | main
  | read
  | producer
  | consumer (o : Outcome)

/-! ## Room for chunks -/

namespace ChunkFileInfo

/-- Chunks that fit in the files, as far as `get_proper_chunk_file` finds the room. -/
def room (cfi : ChunkFileInfo) : ℕ :=
  ∑ i ∈ Finset.range cfi.files, ((2 ^ 32 - cfi.capcity i) / 4096).toNat

variable {cfi cfi' : ChunkFileInfo} {i : ℕ}

/-- With room left the search finds a file. -/
theorem getProperChunkFile_ne_of_room (h : 0 < cfi.room) : cfi.getProperChunkFile ≠ -1 := by
  intro hg
  rcases cfi.foldl_properStep cfi.files with ⟨-, hall⟩ | ⟨i, -, hacc, -⟩
  · have hzero : cfi.room = 0 := by
      refine Finset.sum_eq_zero fun i hi => ?_
      have := hall i (Finset.mem_range.1 hi)
      omega
    omega
  · rw [getProperChunkFile, hacc] at hg
    omega

/-- A slot counts for at most one chunk more in its file. -/
theorem Sound.capcity_takeSlot {ι : Type*} {loc : ι → Option Location} (h : cfi.Sound loc)
    (hi : i < cfi.files) {off : ℤ} (ht : cfi.takeSlot i = some (cfi', off)) :
    cfi'.capcity i ≤ cfi.capcity i + 4096 ∧ (∀ j, j ≠ i → cfi'.capcity j = cfi.capcity j) ∧
      cfi'.files = cfi.files := by
  rcases takeSlot_cases (h.lists i hi) (h.freeOffsets_nonneg hi) with ⟨-, ht'⟩ |
    ⟨fcl, o, os, hcons, hok, hst, ht'⟩
  · obtain rfl : cfi.grow i = cfi' := by
      rw [ht, Option.some.injEq, Prod.mk.injEq] at ht'
      exact ht'.1.symm
    refine ⟨?_, fun j hj => ?_, rfl⟩ <;> simp only [capcity, grow_curSize]
    · have hfcls : (cfi.grow i).fcls = cfi.fcls := rfl
      rw [hfcls, if_true]
      omega
    · rw [if_neg hj]
      rfl
  · obtain rfl : cfi.setFcl i fcl = cfi' := by
      rw [ht, Option.some.injEq, Prod.mk.injEq] at ht'
      exact ht'.1.symm
    refine ⟨?_, fun j hj => ?_, rfl⟩
    · have hlen : fcl.stack.length + 1 = (cfi.fcls i).stack.length := by
        have := congrArg List.length hcons
        rw [← hst] at this
        simpa [freeOffsets] using this.symm
      have hbound := hok.le_current
      have hbound' := (h.lists i hi).le_current
      rw [FreeChunkList.length_stack, FreeChunkList.length_stack] at hlen
      simp only [capcity, setFcl_fcls, if_true, Int.shiftLeft_eq]
      simp only [setFcl]
      split_ifs <;> omega
    · simp only [capcity, setFcl_fcls, if_neg hj]
      rfl

theorem Sound.room_takeSlot {ι : Type*} {loc : ι → Option Location} (h : cfi.Sound loc)
    (hi : i < cfi.files) {off : ℤ} (ht : cfi.takeSlot i = some (cfi', off)) :
    cfi.room ≤ cfi'.room + 1 := by
  obtain ⟨hle, hne, hfiles⟩ := h.capcity_takeSlot hi ht
  rw [room, room, hfiles]
  calc ∑ j ∈ Finset.range cfi.files, ((2 ^ 32 - cfi.capcity j) / 4096).toNat
      ≤ ∑ j ∈ Finset.range cfi.files,
          (((2 ^ 32 - cfi'.capcity j) / 4096).toNat + if j = i then 1 else 0) := by
        refine Finset.sum_le_sum fun j _ => ?_
        split_ifs with hj
        · subst hj
          omega
        · rw [hne j hj, add_zero]
    _ = _ := by
        rw [Finset.sum_add_distrib, Finset.sum_ite_eq', if_pos (Finset.mem_range.2 hi)]

end ChunkFileInfo

/-! ## The steps that are left -/

/-- What is left to do for the pair at hand and to end, the steps of the consumer included. -/
def ProducerPc.left : ProducerPc → ℕ
  | get => 2
  | waitEmpty => 15
  | copyData => 14
  | copyKey => 13
  | advance => 12
  | postFull => 11
  | setOver => 1
  | stopped => 0

/-- What is left to do for the pair at hand. -/
def ConsumerPc.left : ConsumerPc → ℕ
  | waitFull => 0
  | lock => 7
  | copyKey => 6
  | copyData => 5
  | advance => 4
  | unlock => 3
  | postEmpty => 2
  | put => 1

/-- What is left to do where `ret` is `0`. -/
def MainPc.left : MainPc → ℕ
  | test => 3
  | spin => 0
  | close => 2
  | release => 1
  | finished => 0

/-- The consumer holds the mutex. -/
def ConsumerPc.locked : ConsumerPc → Bool
  | copyKey | copyData | advance | unlock => true
  | _ => false

namespace QueueState

variable {H D : Type*} {q q' : QueueState H D}

/-- The steps the two threads have left. -/
def work (q : QueueState H D) : ℕ := q.ppc.left + 8 * q.full + q.cpc.left

/-- The mutex is held by the consumer or free, and `over` says that the producer has stopped. -/
structure Flags (q : QueueState H D) : Prop where
  mutex : q.mutex = q.cpc.locked
  isOver : q.ppc = .stopped → q.isOver = true

theorem work_producerStep (h : q.producerStep = some q') : q'.work + 1 = q.work := by
  simp only [producerStep] at h
  split at h <;> rename_i hpc <;> (try split_ifs at h) <;>
    simp only [Option.some.injEq, reduceCtorEq] at h <;> subst h <;>
    simp only [work, hpc, ProducerPc.left] <;> omega

theorem work_consumerStep (h : q.consumerStep = some q') : q'.work + 1 = q.work := by
  simp only [consumerStep] at h
  split at h <;> rename_i hpc <;> (try split_ifs at h) <;> simp only [Option.some.injEq] at h <;>
    subst h <;> simp only [work, hpc, ConsumerPc.left]
  omega

theorem Flags.of_producerStep (hq : q.Flags) (h : q.producerStep = some q') : q'.Flags := by
  simp only [producerStep] at h
  split at h <;> (try split_ifs at h) <;> simp only [Option.some.injEq, reduceCtorEq] at h <;>
    subst h <;> exact ⟨hq.mutex, by simp⟩

theorem Flags.of_consumerStep (hq : q.Flags) (h : q.consumerStep = some q') : q'.Flags := by
  have hmutex := hq.mutex
  simp only [consumerStep] at h
  split at h <;> rename_i hpc <;> (try split_ifs at h) <;> simp only [Option.some.injEq] at h <;>
    subst h <;> rw [hpc] at hmutex <;> exact ⟨by simp_all [ConsumerPc.locked], hq.isOver⟩

/-- Where neither thread can go on and the producer is not reading, every pair was handed on. -/
theorem Inv.of_stuck {e d : ℕ} (h : q.Inv e d) (hq : q.Flags) (hget : q.ppc ≠ .get)
    (hp : q.producerStep = none) (hc : q.consumerStep = none) :
    q.ppc = .stopped ∧ q.isOver = true ∧ q.handed = q.produced ∧ q.work = 0 := by
  have hprod := h.produced
  have hhand := h.handed
  have hfull := h.full
  have hempty := h.empty
  have hwaits : q.cpc = .waitFull ∧ q.full = 0 := by
    have hmutex := hq.mutex
    cases hpc : q.cpc <;> simp only [consumerStep, hpc] at hc <;> simp_all [ConsumerPc.locked]
  obtain ⟨hcpc, hzero⟩ := hwaits
  simp only [hcpc, hzero, ConsumerPc.taken, ConsumerPc.claimed, ConsumerPc.unposted]
    at hhand hfull hempty
  have hstop : q.ppc = .stopped := by
    cases hpc : q.ppc <;> simp only [producerStep, hpc] at hp <;>
      simp only [hpc, ProducerPc.reserved, ProducerPc.unposted] at hempty hfull
    case get => exact (hget hpc).elim
    case waitEmpty =>
      split_ifs at hp with hz
      omega
    all_goals simp_all
  refine ⟨hstop, hq.isOver hstop, h.inOrder.eq_of_length ?_, ?_⟩
  · simp only [hstop, ProducerPc.pending, ProducerPc.unposted] at hprod hfull
    omega
  · simp only [work, hstop, hcpc, hzero, ProducerPc.left, ConsumerPc.left]

end QueueState

namespace Server

variable {B H D : Type*} {pair : B → H × D} {hashToIndex : H → ℤ} {s s' : Server B H D}

/-- The steps all threads have left. -/
def work (s : Server B H D) : ℕ := 14 * s.input.length + s.queue.work + s.mpc.left

/-- Every step counts. -/
theorem work_step {ev : ServerEvent} (h : s.step pair hashToIndex ev = some s') (hret : s.ret = 0)
    (hspin : s.mpc ≠ .spin) : s'.work + 1 = s.work := by
  rcases step_cases h with ⟨rfl, hq, hin⟩ | ⟨qev, hq, hmpc, -, -, hcases⟩
  · rw [work, work, hq, hin]
    simp only [step, mainStep] at h
    split at h <;> simp only [Option.some.injEq, reduceCtorEq] at h <;> subst h <;>
      simp_all [MainPc.left]
  · rw [work, work, hmpc]
    rcases hcases with ⟨b, bs, hin, rfl, hin'⟩ | ⟨rfl, hin, -⟩ | ⟨rfl | rfl, hin⟩
    · -- the block is the producer's now
      simp only [QueueState.step] at hq
      split_ifs at hq with hpc
      rw [← Option.some.inj hq, hin, hin', List.length_cons]
      simp only [QueueState.work, hpc, ProducerPc.left]
      omega
    · simp only [QueueState.step] at hq
      split_ifs at hq with hpc
      rw [← Option.some.inj hq, hin]
      simp only [QueueState.work, hpc, ProducerPc.left]
      omega
    · rw [hin, ← QueueState.work_producerStep hq]
      omega
    · rw [hin, ← QueueState.work_consumerStep hq]
      omega

/-- `main` does not wait. -/
theorem mpc_step {ev : ServerEvent} (h : s.step pair hashToIndex ev = some s') (hret : s.ret = 0)
    (hspin : s.mpc ≠ .spin) : s'.mpc ≠ .spin ∧ (ev ≠ .main → s'.mpc = s.mpc) := by
  rcases step_cases h with ⟨rfl, -, -⟩ | ⟨qev, -, hmpc, -⟩
  · refine ⟨?_, fun hne => (hne rfl).elim⟩
    simp only [step, mainStep, hret, ne_eq, not_true, if_false] at h
    split at h <;> simp only [Option.some.injEq, reduceCtorEq] at h <;> subst h <;>
      simp_all
  · exact ⟨hmpc ▸ hspin, fun _ => hmpc⟩

theorem flags_step {ev : ServerEvent} (h : s.step pair hashToIndex ev = some s')
    (hf : s.queue.Flags) : s'.queue.Flags := by
  rcases step_cases h with ⟨-, hq, -⟩ | ⟨qev, hq, -⟩
  · rwa [hq]
  · cases qev with
    | got key data | eof =>
      simp only [QueueState.step] at hq
      split_ifs at hq
      rw [← Option.some.inj hq]
      exact ⟨hf.mutex, by simp⟩
    | producer => exact hf.of_producerStep hq
    | consumer => exact hf.of_consumerStep hq

/-- The blocks read and the rest of the input are the input. -/
theorem source_step {ev : ServerEvent} (h : s.step pair hashToIndex ev = some s') :
    s'.queue.produced ++ s'.input.map pair = s.queue.produced ++ s.input.map pair := by
  rcases step_cases h with ⟨-, hq, hin⟩ | ⟨qev, hq, -, -, -, hcases⟩
  · rw [hq, hin]
  · rcases hcases with ⟨b, bs, hin, rfl, hin'⟩ | ⟨rfl, hin, -⟩ | ⟨hev, hin⟩
    · simp only [QueueState.step] at hq
      split_ifs at hq
      rw [← Option.some.inj hq, hin, hin']
      simp only [List.map_cons, List.append_assoc, List.singleton_append]
    · rw [hin, QueueState.produced_eq_of_step hq (by simp)]
    · rw [hin, QueueState.produced_eq_of_step hq (by rcases hev with rfl | rfl <;> simp)]

/-- The consumer hands its pair on. -/
theorem handed_of_put (h : s.step pair hashToIndex .consumer = some s') (hpc : s.queue.cpc = .put) :
    s'.queue.handed = s.queue.handed ++ [(s.queue.ckey, s.queue.cdata)] := by
  obtain ⟨q, hq, rfl⟩ := Option.map_eq_some_iff.1 h
  simp only [QueueState.step, QueueState.consumerStep, hpc] at hq
  rw [← Option.some.inj hq]

/-- No other step does. -/
theorem handed_of_ne {ev : ServerEvent} (h : s.step pair hashToIndex ev = some s')
    (hne : ev = .consumer → s.queue.cpc ≠ .put) : s'.queue.handed = s.queue.handed := by
  cases ev with
  | main =>
    simp only [step, mainStep] at h
    split at h <;> simp only [Option.some.injEq, reduceCtorEq] at h <;> subst h <;> rfl
  | read =>
    simp only [step, readStep] at h
    split at h <;> (try split_ifs at h) <;>
      (obtain ⟨q, hq, rfl⟩ := Option.map_eq_some_iff.1 h
       simp only [QueueState.step] at hq
       split_ifs at hq
       rw [← Option.some.inj hq])
  | producer =>
    obtain ⟨q, hq, rfl⟩ := Option.map_eq_some_iff.1 h
    simp only [QueueState.step, QueueState.producerStep] at hq
    split at hq <;> (try split_ifs at hq) <;>
      simp only [Option.some.injEq, reduceCtorEq] at hq <;> rw [← hq]
  | consumer =>
    obtain ⟨q, hq, rfl⟩ := Option.map_eq_some_iff.1 h
    simp only [QueueState.step, QueueState.consumerStep] at hq
    split at hq <;> rename_i hpc <;> (try split_ifs at hq) <;>
      simp only [Option.some.injEq] at hq <;> rw [← hq]
    exact (hne rfl hpc).elim

end Server

/-! ## The store behind the queue -/

/-- The pair a call stores. -/
def PutCall.pair {K : Type*} (c : PutCall K) : K × Block := (c.key, c.block)

namespace Pipeline

variable {B K P : Type*} [DecidableEq K]

/-- A step that does not reach the store. -/
def serve (pair : B → K × Block) (hashToIndex : K → ℤ) (p : Pipeline B K P) (ev : ServerEvent) :
    Option (Pipeline B K P) :=
  (p.server.step pair hashToIndex ev).map fun server => { p with server }

/-- The call of `put_new_chunk(cfi, hash_key, chunk_data, FSP_SIZE)`. -/
def put (whd : WriteHashDb K) (o : Outcome) (p : Pipeline B K P) : Option (Pipeline B K P) :=
  let c : PutCall K := ⟨p.server.queue.ckey, p.server.queue.cdata, o⟩
  (p.store.putNewChunk whd o c.key c.block.val fspSize).map fun (store, ret) =>
    { p with store, calls := p.calls ++ [c], rets := p.rets ++ [(c.key, ret)] }

/-- One event. -/
def step (whd : WriteHashDb K) (pair : B → K × Block) (hashToIndex : K → ℤ) (p : Pipeline B K P) :
    PipelineEvent → Option (Pipeline B K P)
  | .main => p.serve pair hashToIndex .main
  | .read => p.serve pair hashToIndex .read
  | .producer => p.serve pair hashToIndex .producer
  | .consumer o =>
    if p.server.queue.cpc = .put then
      -- `release_chunk_file` has closed the files and freed the arrays
      if p.server.mpc = .finished then none
      else (p.put whd o).bind fun p => p.serve pair hashToIndex .consumer
    else p.serve pair hashToIndex .consumer

/-- The server at its start on a store. -/
def started (queue : QueueState K Block) (input : List B) (store : Store K P) :
    Pipeline B K P where
  server := .started queue input
  store := store
  calls := []
  rets := []

/-- The store takes the blocks of an input : they have one queue, equal keys carry equal blocks,
no count overflows, and there is room for all. -/
structure Takes (content : K → Block) (pair : B → K × Block) (hashToIndex : K → ℤ)
    (s : Store K P) (input : List B) : Prop where
  wellFormed : s.WellFormed
  sized : s.cfi.Sized
  holds : s.Holds content
  index : ∀ b ∈ input, hashToIndex (pair b).1 = 0
  block : ∀ b ∈ input, (pair b).2 = content (pair b).1
  count : ∀ k, -2 ^ 31 ≤ s.refCount k ∧ s.refCount k + input.length < 2 ^ 31
  room : input.length ≤ s.cfi.room

/-- What holds in every state reached from `s₀` on the input `input₀`. -/
structure Inv (whd : WriteHashDb K) (content : K → Block) (pair : B → K × Block)
    (s₀ : Store K P) (input₀ : List B) (p : Pipeline B K P) : Prop where
  running : p.server.Running
  flags : p.server.queue.Flags
  spin : p.server.mpc ≠ .spin
  source : p.server.queue.produced ++ p.server.input.map pair = input₀.map pair
  calls : p.calls.map PutCall.pair = p.server.queue.handed
  rets : p.rets.length = p.calls.length
  ingest : Store.ingest whd p.calls s₀ = some (p.store, p.rets)
  ingested : Store.Ingested content s₀ p.store p.rets
  room : input₀.length ≤ p.store.cfi.room + p.calls.length

variable {whd : WriteHashDb K} {content : K → Block} {pair : B → K × Block}
  {hashToIndex : K → ℤ} {s₀ : Store K P} {input₀ : List B} {p p' : Pipeline B K P}

omit [DecidableEq K] in
theorem serve_cases {ev : ServerEvent} (h : p.serve pair hashToIndex ev = some p') :
    p.server.step pair hashToIndex ev = some p'.server ∧
      p'.store = p.store ∧ p'.calls = p.calls ∧ p'.rets = p.rets := by
  obtain ⟨server, hserver, rfl⟩ := Option.map_eq_some_iff.1 h
  exact ⟨hserver, rfl, rfl, rfl⟩

theorem put_cases {o : Outcome} (h : p.put whd o = some p') :
    p'.server = p.server ∧ ∃ ret,
      p.store.putNewChunk whd o p.server.queue.ckey p.server.queue.cdata.val fspSize =
        some (p'.store, ret) ∧
      p'.calls = p.calls ++ [⟨p.server.queue.ckey, p.server.queue.cdata, o⟩] ∧
      p'.rets = p.rets ++ [(p.server.queue.ckey, ret)] := by
  obtain ⟨⟨store, ret⟩, hput, rfl⟩ := Option.map_eq_some_iff.1 h
  exact ⟨rfl, ret, hput, rfl, rfl⟩

/-- A step of the consumer reaches the store where it hands its pair on, and `main` has not
released the chunk files by then. -/
theorem consumer_cases {o : Outcome}
    (h : p.step whd pair hashToIndex (.consumer o) = some p') :
    (p.server.queue.cpc = .put ∧ p.server.mpc ≠ .finished ∧
      ∃ p₁, p.put whd o = some p₁ ∧ p₁.serve pair hashToIndex .consumer = some p') ∨
    (p.server.queue.cpc ≠ .put ∧ p.serve pair hashToIndex .consumer = some p') := by
  simp only [step] at h
  split_ifs at h with hpc hfin
  · exact Or.inl ⟨hpc, hfin, Option.bind_eq_some_iff.1 h⟩
  · exact Or.inr ⟨hpc, h⟩

/-- Every event is one of the server. -/
theorem step_server {ev : PipelineEvent} (h : p.step whd pair hashToIndex ev = some p') :
    ∃ sev, p.server.step pair hashToIndex sev = some p'.server := by
  cases ev with
  | main | read | producer => exact ⟨_, (serve_cases h).1⟩
  | consumer o =>
    rcases consumer_cases h with ⟨-, -, p₁, hput, hserve⟩ | ⟨-, hserve⟩
    · exact ⟨_, (put_cases hput).1 ▸ (serve_cases hserve).1⟩
    · exact ⟨_, (serve_cases hserve).1⟩

end Pipeline

namespace Store

variable {K P : Type*} [DecidableEq K] {whd : WriteHashDb K} {content : K → Block}

/-- One call after the others. -/
theorem ingest_concat {c : PutCall K} {s₁ s' : Store K P} {ret : ℤ}
    (hput : s₁.putNewChunk whd c.o c.key c.block.val fspSize = some (s', ret)) :
    ∀ {calls : List (PutCall K)} {s : Store K P} {rs : List (K × ℤ)},
      ingest whd calls s = some (s₁, rs) →
        ingest whd (calls ++ [c]) s = some (s', rs ++ [(c.key, ret)])
  | [], s, rs, h => by
    obtain ⟨rfl, rfl⟩ : s = s₁ ∧ [] = rs := by simpa [ingest] using h
    simp [ingest, hput]
  | d :: calls, s, rs, h => by
    obtain ⟨⟨s₂, ret₂⟩, h₂, hrest⟩ := Option.bind_eq_some_iff.1 h
    obtain ⟨⟨s₃, rs₃⟩, h₃, heq⟩ := Option.map_eq_some_iff.1 hrest
    obtain ⟨rfl, rfl⟩ : s₃ = s₁ ∧ (d.key, ret₂) :: rs₃ = rs := by simpa using heq
    rw [List.cons_append, ingest, h₂, Option.bind_some, ingest_concat hput h₃]
    rfl

theorem ingested_nil {s : Store K P} (hwf : s.WellFormed) (hsz : s.cfi.Sized)
    (hh : s.Holds content) : Ingested content s s [] :=
  ⟨by simp, by simp, hh, hwf, hsz⟩

theorem Ingested.concat {s s₁ s' : Store K P} {rs : List (K × ℤ)} {key : K} {ret : ℤ}
    (h : Ingested content s s₁ rs) (hc : Counted s₁ s' key ret) (hwf : s'.WellFormed)
    (hsz : s'.cfi.Sized) (hh : s'.Holds content) :
    Ingested content s s' (rs ++ [(key, ret)]) := by
  refine ⟨fun k => ?_, fun k => ?_, hh, hwf, hsz⟩
  · rw [hc.isSome, h.isSome, List.mem_append, List.mem_singleton, Prod.mk.injEq, or_assoc,
      eq_comm (a := (0 : ℤ))]
  · have hbeq : ((key, ret) == (k, 0)) = decide (k = key ∧ ret = 0) := by
      simp [beq_eq_decide, Prod.mk.injEq, eq_comm (a := k)]
    rw [hc.refCount, h.refCount, List.count_append, List.count_cons, hbeq, List.count_nil]
    by_cases hk : k = key ∧ ret = 0
    · simp [hk]
      omega
    · simp [hk]

end Store

namespace Pipeline

variable {B K P : Type*} [DecidableEq K] {whd : WriteHashDb K} {content : K → Block}
  {pair : B → K × Block} {hashToIndex : K → ℤ} {s₀ : Store K P} {input₀ : List B}
  {p p' : Pipeline B K P}

/-- The pair the consumer hands on is that of a block of the input. -/
theorem Inv.exists_block (h : p.Inv whd content pair s₀ input₀)
    (hpc : p.server.queue.cpc = .put) :
    p.calls.length < input₀.length ∧
      ∃ b ∈ input₀, pair b = (p.server.queue.ckey, p.server.queue.cdata) := by
  obtain ⟨e, d, hinv⟩ := h.running.inv
  have hlen : p.calls.length = p.server.queue.handed.length := by
    rw [← h.calls, List.length_map]
  have hget := hinv.consumer.taken (by rw [hpc]; rfl)
  have hget' : (input₀.map pair)[p.server.queue.handed.length]? =
      some (p.server.queue.ckey, p.server.queue.cdata) := by
    rw [← h.source, List.getElem?_append_left (List.getElem?_eq_some_iff.1 hget).1, hget]
  obtain ⟨b, hb, hpair⟩ := List.mem_map.1 (List.mem_of_getElem? hget')
  have hlt := (List.getElem?_eq_some_iff.1 hget').1
  rw [List.length_map] at hlt
  exact ⟨hlen ▸ hlt, b, hb, hpair⟩

/-- The call it makes does not fail an assertion. -/
theorem Inv.ingestible (h : p.Inv whd content pair s₀ input₀)
    (ht : Takes content pair hashToIndex s₀ input₀) (hpc : p.server.queue.cpc = .put)
    {o : Outcome} (ho : o.dbGet = 0) :
    Store.Ingestible content p.store ⟨p.server.queue.ckey, p.server.queue.cdata, o⟩ := by
  obtain ⟨hlt, b, hb, hpair⟩ := h.exists_block hpc
  have hroom := h.room
  refine ⟨ho, ?_, fun _ => ChunkFileInfo.getProperChunkFile_ne_of_room (by omega),
    fun bd hbd => ?_⟩
  · have := ht.block b hb
    rwa [hpair] at this
  · dsimp only at hbd
    have hcount := h.ingested.refCount p.server.queue.ckey
    have hle := List.count_le_length (a := (p.server.queue.ckey, (0 : ℤ))) (l := p.rets)
    have hfits := ht.count p.server.queue.ckey
    have hrets := h.rets
    have hbd' : p.store.refCount p.server.queue.ckey = bd.refCount := by
      simp only [Store.refCount, hbd, Option.map_some, Option.getD_some]
    omega

/-- A call of `put_new_chunk`. -/
theorem Inv.put (h : p.Inv whd content pair s₀ input₀)
    (ht : Takes content pair hashToIndex s₀ input₀) (hpc : p.server.queue.cpc = .put)
    {o : Outcome} (ho : o.dbGet = 0) :
    ∃ p', p.put whd o = some p' ∧ p'.server = p.server ∧
      p'.calls.map PutCall.pair =
        p.server.queue.handed ++ [(p.server.queue.ckey, p.server.queue.cdata)] ∧
      p'.rets.length = p'.calls.length ∧
      Store.ingest whd p'.calls s₀ = some (p'.store, p'.rets) ∧
      Store.Ingested content s₀ p'.store p'.rets ∧
      input₀.length ≤ p'.store.cfi.room + p'.calls.length := by
  have hA := h.ingestible ht hpc ho
  have hing := h.ingested
  obtain ⟨s', ret, hput, hwf, hsz, hh, hcount⟩ :=
    Store.putNewChunk_ingested whd hing.wellFormed hing.sized hing.holds hA
  obtain ⟨s₂, ret₂, hput₂, -, -, -, halloc, -⟩ := Store.putNewChunk_spec whd hing.wellFormed
    hing.holds hA.dbGet hA.room fun hk _ => by
      obtain ⟨i, hi, hpi, -⟩ := ChunkFileInfo.exists_file_of_ne (hA.room hk)
      rw [hpi, Int.toNat_natCast]
      exact (hing.sized i hi).1
  have hblock : (content p.server.queue.ckey).val = p.server.queue.cdata.val :=
    congrArg Subtype.val hA.block.symm
  dsimp only at hput hput₂
  obtain rfl : s₂ = s' := by
    rw [hblock, hput] at hput₂
    exact (Prod.mk.inj (Option.some.inj hput₂)).1.symm
  have hroom : p.store.cfi.room ≤ s₂.cfi.room + 1 := by
    rcases halloc with hcfi | ⟨i, hi, -, -, off, htake⟩
    · rw [hcfi]
      omega
    · exact hing.wellFormed.sound.room_takeSlot hi htake
  refine ⟨⟨p.server, s₂, p.calls ++ [⟨p.server.queue.ckey, p.server.queue.cdata, o⟩],
    p.rets ++ [(p.server.queue.ckey, ret)]⟩, ?_, rfl, ?_, ?_, ?_, ?_, ?_⟩
  · simp only [Pipeline.put, hput, Option.map_some]
  · rw [List.map_append, h.calls]
    rfl
  · simp only [List.length_append, h.rets, List.length_singleton]
  · exact Store.ingest_concat hput h.ingest
  · exact hing.concat hcount hwf hsz hh
  · have := h.room
    simp only [List.length_append, List.length_singleton]
    omega

theorem inv_started {q₀ : QueueState K Block} (h₀ : q₀.Initial)
    (ht : Takes content pair hashToIndex s₀ input₀) :
    (started q₀ input₀ s₀).Inv whd content pair s₀ input₀ where
  running := Server.running_started h₀ input₀
  flags := ⟨by simp [started, Server.started, h₀.mutex, h₀.cpc, ConsumerPc.locked],
    by simp [started, Server.started, h₀.ppc]⟩
  spin := by simp [started, Server.started]
  source := by simp [started, Server.started, h₀.produced]
  calls := by simp [started, Server.started, h₀.handed]
  rets := rfl
  ingest := rfl
  ingested := Store.ingested_nil ht.wellFormed ht.sized ht.holds
  room := ht.room

/-- A step of the server with its effect on the calls. -/
theorem Inv.of_server {sev : ServerEvent} (h : p.Inv whd content pair s₀ input₀)
    (hs : p.server.step pair hashToIndex sev = some p'.server)
    (hcalls : p'.calls.map PutCall.pair = p'.server.queue.handed)
    (hrets : p'.rets.length = p'.calls.length)
    (hingest : Store.ingest whd p'.calls s₀ = some (p'.store, p'.rets))
    (hingested : Store.Ingested content s₀ p'.store p'.rets)
    (hroom : input₀.length ≤ p'.store.cfi.room + p'.calls.length) :
    p'.Inv whd content pair s₀ input₀ :=
  ⟨h.running.step hs, Server.flags_step hs h.flags, (Server.mpc_step hs h.running.ret h.spin).1,
    (Server.source_step hs).trans h.source, hcalls, hrets, hingest, hingested, hroom⟩

theorem Inv.serve {sev : ServerEvent} (h : p.Inv whd content pair s₀ input₀)
    (hs : p.serve pair hashToIndex sev = some p')
    (hne : sev = .consumer → p.server.queue.cpc ≠ .put) : p'.Inv whd content pair s₀ input₀ := by
  obtain ⟨hserver, hstore, hcalls, hrets⟩ := serve_cases hs
  refine h.of_server hserver ?_ ?_ ?_ ?_ ?_
  · rw [hcalls, h.calls, Server.handed_of_ne hserver hne]
  · rw [hcalls, hrets, h.rets]
  · rw [hcalls, hstore, hrets, h.ingest]
  · rw [hstore, hrets]
    exact h.ingested
  · rw [hstore, hcalls]
    exact h.room

/-- Every event keeps the invariant. -/
theorem Inv.step {ev : PipelineEvent} (h : p.Inv whd content pair s₀ input₀)
    (ht : Takes content pair hashToIndex s₀ input₀) (ho : ∀ o, ev = .consumer o → o.dbGet = 0)
    (hs : p.step whd pair hashToIndex ev = some p') : p'.Inv whd content pair s₀ input₀ := by
  cases ev with
  | main | read | producer => exact h.serve hs (by simp)
  | consumer o =>
    rcases consumer_cases hs with ⟨hpc, -, p₁, hput, hserve⟩ | ⟨hpc, hserve⟩
    · obtain ⟨p₂, hput₂, hserver₂, hcalls, hrets, hingest, hingested, hroom⟩ :=
        h.put ht hpc (ho o rfl)
      obtain rfl : p₁ = p₂ := by simpa [hput] using hput₂
      obtain ⟨hserver, hstore', hcalls', hrets'⟩ := serve_cases hserve
      rw [hserver₂] at hserver
      refine h.of_server hserver ?_ ?_ ?_ ?_ ?_
      · rw [hcalls', hcalls, Server.handed_of_put hserver hpc]
      · rw [hcalls', hrets', hrets]
      · rw [hcalls', hstore', hrets', hingest]
      · rw [hstore', hrets']
        exact hingested
      · rw [hstore', hcalls']
        exact hroom
    · exact h.serve hserve fun _ => hpc

/-- `db_get` succeeds in each call. -/
def Gets (ev : PipelineEvent) : Prop := ∀ o, ev = .consumer o → o.dbGet = 0

/-- No thread but `main` can go on. -/
def Stuck (whd : WriteHashDb K) (pair : B → K × Block) (hashToIndex : K → ℤ)
    (p : Pipeline B K P) : Prop :=
  ∀ ev, ev ≠ .main → Gets ev → p.step whd pair hashToIndex ev = none

/-- Nor can they where the producer has stopped and the queue is quiet. -/
theorem stuck_of_quiet (hquiet : Server.Quiet p.server.queue)
    (hstop : p.server.queue.ppc = .stopped) : p.Stuck whd pair hashToIndex := by
  have hnone := fun qev => hquiet.stuck (fun _ => hstop) qev
  intro ev hev _
  cases ev with
  | main => exact (hev rfl).elim
  | read =>
    simp only [Pipeline.step, Pipeline.serve, Server.step, Server.readStep]
    split <;> (try split_ifs) <;> simp [hnone]
  | producer => simp [Pipeline.step, Pipeline.serve, Server.step, hnone]
  | consumer o => simp [Pipeline.step, Pipeline.serve, Server.step, hnone, hquiet.waits]

theorem inv_exec {q₀ : QueueState K Block} (h₀ : q₀.Initial)
    (ht : Takes content pair hashToIndex s₀ input₀) {evs : List PipelineEvent}
    (hget : ∀ ev ∈ evs, Gets ev)
    (hp : Runs.exec (step whd pair hashToIndex) (started q₀ input₀ s₀) evs = some p) :
    p.Inv whd content pair s₀ input₀ :=
  Runs.Each.exec_invariant (C := fun _ ev => Gets ev) (fun _ _ _ hI hC hs => hI.step ht hC hs)
    (Runs.Each.of_forall_mem hget) (inv_started h₀ ht) hp

/-- Whatever the schedule, the store is what the calls for the first blocks of the input make of
it, one after the other. -/
theorem pipeline_ingests (whd : WriteHashDb K) (content : K → Block) (pair : B → K × Block)
    (hashToIndex : K → ℤ) {q₀ : QueueState K Block} (h₀ : q₀.Initial) {s₀ : Store K P}
    {input₀ : List B} (ht : Takes content pair hashToIndex s₀ input₀) {evs : List PipelineEvent}
    (hget : ∀ ev ∈ evs, Gets ev) {p : Pipeline B K P}
    (hp : Runs.exec (step whd pair hashToIndex) (started q₀ input₀ s₀) evs = some p) :
    p.calls.map PutCall.pair <+: input₀.map pair ∧
      Store.ingest whd p.calls s₀ = some (p.store, p.rets) ∧
      Store.Ingested content s₀ p.store p.rets := by
  have h := inv_exec h₀ ht hget hp
  obtain ⟨e, d, hinv⟩ := h.running.inv
  refine ⟨?_, h.ingest, h.ingested⟩
  rw [h.calls, ← h.source]
  exact hinv.inOrder.trans (List.prefix_append _ _)

/-- Every event counts. -/
theorem Inv.work_step {ev : PipelineEvent} (h : p.Inv whd content pair s₀ input₀)
    (hs : p.step whd pair hashToIndex ev = some p') : p'.server.work + 1 = p.server.work := by
  obtain ⟨sev, hserver⟩ := step_server hs
  exact Server.work_step hserver h.running.ret h.spin

/-- `main` alone moves `main`. -/
theorem Inv.mpc_step {ev : PipelineEvent} (h : p.Inv whd content pair s₀ input₀)
    (hev : ev ≠ .main) (hs : p.step whd pair hashToIndex ev = some p') :
    p'.server.mpc = p.server.mpc := by
  cases ev with
  | main => exact (hev rfl).elim
  | read | producer =>
    exact (Server.mpc_step (serve_cases hs).1 h.running.ret h.spin).2 (by simp)
  | consumer o =>
    rcases consumer_cases hs with ⟨-, -, p₁, hput, hserve⟩ | ⟨-, hserve⟩
    · have hserver := (serve_cases hserve).1
      rw [(put_cases hput).1] at hserver
      exact (Server.mpc_step hserver h.running.ret h.spin).2 (by simp)
    · exact (Server.mpc_step (serve_cases hserve).1 h.running.ret h.spin).2 (by simp)

omit [DecidableEq K] in
theorem serve_none {sev : ServerEvent} (h : p.serve pair hashToIndex sev = none) :
    p.server.step pair hashToIndex sev = none :=
  Option.map_eq_none_iff.1 h

/-- A block not read yet is one of the input. -/
theorem Inv.index_eq_zero (h : p.Inv whd content pair s₀ input₀)
    (ht : Takes content pair hashToIndex s₀ input₀) {b : B} (hb : b ∈ p.server.input) :
    hashToIndex (pair b).1 = 0 := by
  have hmem : pair b ∈ input₀.map pair := by
    rw [← h.source]
    exact List.mem_append_right _ (List.mem_map_of_mem hb)
  obtain ⟨b', hb', hpair⟩ := List.mem_map.1 hmem
  rw [← hpair]
  exact ht.index b' hb'

/-- The consumer can hand its pair on. -/
theorem Inv.exists_put (h : p.Inv whd content pair s₀ input₀)
    (ht : Takes content pair hashToIndex s₀ input₀) (hfin : p.server.mpc ≠ .finished)
    (hpc : p.server.queue.cpc = .put) :
    p.step whd pair hashToIndex (.consumer {}) ≠ none := by
  obtain ⟨p₁, hput, hserver, -⟩ := h.put ht hpc (o := {}) rfl
  rw [Pipeline.step, if_pos hpc, if_neg hfin, hput, Option.bind_some, Pipeline.serve, hserver,
    Server.step, QueueState.step, QueueState.consumerStep, hpc]
  simp

/-- Before `main` has gone on, the threads end only where every block was handed on. -/
theorem Inv.of_stuck (h : p.Inv whd content pair s₀ input₀)
    (ht : Takes content pair hashToIndex s₀ input₀) (hmpc : p.server.mpc = .test)
    (hstuck : p.Stuck whd pair hashToIndex) :
    p.server.queue.isOver = true ∧ p.calls.map PutCall.pair = input₀.map pair ∧
      p.server.work = 3 := by
  have hfin : p.server.mpc ≠ .finished := by
    rw [hmpc]
    simp
  have hopen := h.running.fdOpen hmpc
  obtain ⟨e, d, hinv⟩ := h.running.inv
  have hget : p.server.queue.ppc ≠ .get := by
    -- a call of `get_one_chunk` returns, with a block or without
    intro hpc
    have hread := serve_none (hstuck .read (by simp) (by simp [Gets]))
    simp only [Server.step, Server.readStep, hopen] at hread
    split at hread
    · rename_i b bs _ hinput
      rw [if_pos (h.index_eq_zero ht (hinput ▸ List.mem_cons_self))] at hread
      simp [QueueState.step, hpc] at hread
    · simp [QueueState.step, hpc] at hread
  have hprod : p.server.queue.producerStep = none := by
    have := serve_none (hstuck .producer (by simp) (by simp [Gets]))
    rwa [Server.step, QueueState.step, Option.map_eq_none_iff] at this
  have hcons : p.server.queue.consumerStep = none := by
    have hnone := hstuck (.consumer {}) (by simp) (by simp [Gets])
    have hpc : p.server.queue.cpc ≠ .put := fun hpc => h.exists_put ht hfin hpc hnone
    rw [Pipeline.step, if_neg hpc] at hnone
    have := serve_none hnone
    rwa [Server.step, QueueState.step, Option.map_eq_none_iff] at this
  obtain ⟨hstop, hover, hhanded, hwork⟩ := hinv.of_stuck h.flags hget hprod hcons
  have hinput := h.running.ended (Or.inr hstop) hopen
  refine ⟨hover, ?_, ?_⟩
  · have := h.source
    rw [hinput, List.map_nil, List.append_nil] at this
    rw [h.calls, hhanded, this]
  · rw [Server.work, hinput, hwork, hmpc]
    rfl

omit [DecidableEq K] in
theorem work_started {q₀ : QueueState K Block} (h₀ : q₀.Initial) :
    (started q₀ input₀ s₀).server.work = 14 * input₀.length + 5 := by
  simp only [started, Server.started, Server.work, QueueState.work, h₀.ppc, h₀.full, h₀.cpc,
    ProducerPc.left, ConsumerPc.left, MainPc.left]

/-- Every schedule ends. Without steps of `main` all take the same number of them, after which the
blocks were handed on in the order of the input, and the store is what the calls for them make of
it. -/
theorem pipeline_ends (whd : WriteHashDb K) (content : K → Block) (pair : B → K × Block)
    (hashToIndex : K → ℤ) {q₀ : QueueState K Block} (h₀ : q₀.Initial) {s₀ : Store K P}
    {input₀ : List B} (ht : Takes content pair hashToIndex s₀ input₀) {evs : List PipelineEvent}
    (hget : ∀ ev ∈ evs, Gets ev) {p : Pipeline B K P}
    (hp : Runs.exec (step whd pair hashToIndex) (started q₀ input₀ s₀) evs = some p) :
    evs.length ≤ 14 * input₀.length + 5 ∧
      ((∀ ev ∈ evs, ev ≠ .main) → p.Stuck whd pair hashToIndex →
        evs.length = 14 * input₀.length + 2 ∧ p.server.queue.isOver = true ∧
          p.calls.map PutCall.pair = input₀.map pair ∧
          Store.ingest whd p.calls s₀ = some (p.store, p.rets) ∧
          Store.Ingested content s₀ p.store p.rets) := by
  have hlen := (Runs.Each.of_forall_mem hget).exec_length
    (I := fun p => p.Inv whd content pair s₀ input₀) (m := fun p => p.server.work)
    (fun _ _ _ hI hC hs => ⟨hI.step ht hC hs, hI.work_step hs⟩) (inv_started h₀ ht) hp
  rw [work_started h₀] at hlen
  refine ⟨by omega, fun hmain hstuck => ?_⟩
  obtain ⟨hinv, hmpc⟩ := (Runs.Each.of_forall_mem
    (C := fun ev => Gets ev ∧ ev ≠ .main) fun ev hev => ⟨hget ev hev, hmain ev hev⟩).exec_invariant
    (I := fun p => p.Inv whd content pair s₀ input₀ ∧ p.server.mpc = .test)
    (fun _ _ _ hI hC hs => ⟨hI.1.step ht hC.1 hs, (hI.1.mpc_step hC.2 hs).trans hI.2⟩)
    ⟨inv_started h₀ ht, rfl⟩ hp
  obtain ⟨hover, hcalls, hwork⟩ := hinv.of_stuck ht hmpc hstuck
  exact ⟨by omega, hover, hcalls, hinv.ingest, hinv.ingested⟩

/-! ## One block -/

/-- A queue and threads at their start. -/
def freshQueue {H D : Type*} (key : H) (data : D) : QueueState H D :=
  ⟨⟨8, 0, false, 0, 0, fun _ => key, fun _ => data⟩, .get, key, data, .waitFull, key, data, false,
    [], []⟩

theorem initial_freshQueue {H D : Type*} (key : H) (data : D) : (freshQueue key data).Initial :=
  ⟨rfl, rfl, rfl, rfl, rfl, rfl, rfl, rfl, rfl, rfl⟩

/-- The block numbered `b`. -/
def onePair (b : ℕ) : ℕ × Block := (b, Store.fillBlock 1)

theorem takes_empty : Takes (fun _ => Store.fillBlock 1) onePair (fun _ => 0)
    (Store.empty 1 : Store ℕ ℕ) [7] where
  wellFormed := Store.wellFormed_empty 1
  sized := by simp [ChunkFileInfo.Sized, Store.empty]
  holds := Store.holds_empty _ 1
  index _ _ := rfl
  block _ _ := rfl
  count _ := by simp [Store.refCount, Store.empty]
  room := by decide +kernel

/-- The steps of one block, and the end of the input. -/
def oneBlock : List PipelineEvent :=
  .read :: .replicate 5 .producer ++ .replicate 8 (.consumer {}) ++ [.read, .producer]

theorem gets_oneBlock : ∀ ev ∈ oneBlock, Gets ev := by
  rintro ev hev o rfl
  have : o = {} := by simpa [oneBlock] using hev
  rw [this]

theorem exec_oneBlock : ∃ p : Pipeline ℕ ℕ ℕ,
    Runs.exec (step (.insert ℕ) onePair fun _ => 0)
      (started (freshQueue 0 (Store.fillBlock 0)) [7] (Store.empty 1)) oneBlock = some p ∧
        p.rets = [(7, 0)] ∧ Server.Quiet p.server.queue ∧ p.server.queue.ppc = .stopped := by
  have hrun : (Runs.exec (step (.insert ℕ) onePair fun _ => 0)
      (started (freshQueue 0 (Store.fillBlock 0)) [7] (Store.empty 1 : Store ℕ ℕ)) oneBlock).map
        (fun p => (p.rets, p.server.queue.isOver, p.server.queue.full, p.server.queue.cpc,
          p.server.queue.ppc)) = some ([(7, 0)], true, 0, .waitFull, .stopped) := by
    decide +kernel
  obtain ⟨p, hp, heq⟩ := Option.map_eq_some_iff.1 hrun
  simp only [Prod.mk.injEq] at heq
  obtain ⟨hrets, hover, hfull, hcpc, hppc⟩ := heq
  exact ⟨p, hp, hrets, ⟨hover, hfull, hcpc⟩, hppc⟩

/-- The store after one block. -/
theorem pipeline_ingests_one : ∃ p : Pipeline ℕ ℕ ℕ, p.rets = [(7, 0)] ∧
    p.calls.map PutCall.pair <+: [7].map onePair ∧
      Store.ingest (.insert ℕ) p.calls (Store.empty 1) = some (p.store, p.rets) ∧
      Store.Ingested (fun _ => Store.fillBlock 1) (Store.empty 1) p.store p.rets := by
  obtain ⟨p, hp, hrets, -⟩ := exec_oneBlock
  exact ⟨p, hrets,
    pipeline_ingests (.insert ℕ) _ _ _ (initial_freshQueue _ _) takes_empty gets_oneBlock hp⟩

/-- The steps of one block are all. -/
theorem pipeline_ends_one : ∃ p : Pipeline ℕ ℕ ℕ, p.rets = [(7, 0)] ∧
    oneBlock.length ≤ 14 * [7].length + 5 ∧
      oneBlock.length = 14 * [7].length + 2 ∧ p.server.queue.isOver = true ∧
      p.calls.map PutCall.pair = [7].map onePair ∧
      Store.ingest (.insert ℕ) p.calls (Store.empty 1) = some (p.store, p.rets) ∧
      Store.Ingested (fun _ => Store.fillBlock 1) (Store.empty 1) p.store p.rets := by
  obtain ⟨p, hp, hrets, hquiet, hstop⟩ := exec_oneBlock
  obtain ⟨hle, hend⟩ :=
    pipeline_ends (.insert ℕ) _ _ _ (initial_freshQueue _ _) takes_empty gets_oneBlock hp
  exact ⟨p, hrets, hle, hend (by simp [oneBlock]) (stuck_of_quiet hquiet hstop)⟩

end Pipeline

end Agilefs
