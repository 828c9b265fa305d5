import Agilefs.Durable
import Agilefs.Pipeline

/-!
# The lives of a server

A life of the server starts the threads on an input and ends when `main` has released the chunk
files; the next process starts with `init_chunk_file` again (`Life.run`). `main` does not wait for
the threads, so a life may end anywhere in the input, but a call of `put_new_chunk` that has not
returned when the files are released leaves them in no state that could be told.

`lives_durable` : after any number of lives without such a call, whatever their schedules, each
block that was put with success in one of them is read back, and is counted once for each time.
-/

namespace Agilefs

open Function Posix ByteFile

variable {B K P : Type*} [DecidableEq K] [DecidableEq P]

/-- A process : its queue and its threads at their start, the input, the schedule, and what the next
process finds when it starts. -/
structure Life (B K : Type*) where
  queue : QueueState K Block
  input : List B
  evs : List PipelineEvent
  env : InitEnv
  base : ChunkFileInfo

namespace Store

omit [DecidableEq K] [DecidableEq P] in
theorem refCount_eq_counts (s : Store K P) (k : K) : s.refCount k = (s.counts k).getD 0 := rfl

variable {content : K → Block} {s s' s₁ : Store K P} {rs rs₁ : List (K × ℤ)}

omit [DecidableEq P] in
/-- Calls after calls. -/
theorem Ingested.trans (h : Ingested content s s₁ rs) (h₁ : Ingested content s₁ s' rs₁) :
    Ingested content s s' (rs ++ rs₁) := by
  refine ⟨fun k => ?_, fun k => ?_, h₁.holds, h₁.wellFormed, h₁.sized⟩
  · rw [h₁.isSome, h.isSome, List.mem_append, or_assoc]
  · rw [h₁.refCount, h.refCount, List.count_append]
    omega

omit [DecidableEq P] in
/-- What a call returned is listed with its key. -/
theorem map_fst_ingest {whd : WriteHashDb K} : ∀ {calls : List (PutCall K)} {s s' : Store K P}
    {rs : List (K × ℤ)}, ingest whd calls s = some (s', rs) →
      rs.map Prod.fst = calls.map PutCall.key
  | [], s, s', rs, h => by
    obtain ⟨-, rfl⟩ := Prod.mk.inj (Option.some.inj h)
    rfl
  | c :: calls, s, s', rs, h => by
    obtain ⟨⟨s₁, ret⟩, -, hrest⟩ := Option.bind_eq_some_iff.1 h
    obtain ⟨⟨s₂, rs₂⟩, h₂, heq⟩ := Option.map_eq_some_iff.1 hrest
    obtain ⟨-, rfl⟩ := Prod.mk.inj heq
    rw [List.map_cons, List.map_cons, map_fst_ingest h₂]

omit [DecidableEq P] in
/-- A restart loses nothing of it. -/
theorem Ingested.of_counts {doc : List (XmlEvent P)} (h : Ingested content s s₁ rs)
    (hcounts : s'.counts = s₁.counts) (hdur : s'.Durable content doc) :
    Ingested content s s' rs := by
  have hsome : ∀ k, (s'.db k).isSome = (s₁.db k).isSome := fun k => by
    have := congrArg Option.isSome (congrFun hcounts k)
    rwa [counts, counts, Option.isSome_map, Option.isSome_map] at this
  refine ⟨fun k => ?_, fun k => ?_, hdur.holds, hdur.wellFormed, hdur.sized⟩
  · rw [hsome, h.isSome]
  · rw [refCount_eq_counts, hcounts, ← refCount_eq_counts, h.refCount]

end Store

/-! ## One life -/

namespace Pipeline

variable {whd : WriteHashDb K} {content : K → Block} {pair : B → K × Block} {hashToIndex : K → ℤ}
  {s₀ : Store K P} {input₀ : List B} {doc : List (XmlEvent P)} {p p' : Pipeline B K P}

/-- The reads of the database and the transfers succeed in each call. -/
def Transfers (ev : PipelineEvent) : Prop :=
  ∀ o, ev = .consumer o → o.dbGet = 0 ∧ o.pwrite = .full

/-- The store is at each step one that can be started again. -/
theorem Inv.durable_step {ev : PipelineEvent} (h : p.Inv whd content pair s₀ input₀)
    (ht : Takes content pair hashToIndex s₀ input₀) (hev : Transfers ev)
    (hdur : p.store.Durable content doc) (hs : p.step whd pair hashToIndex ev = some p') :
    p'.store.Durable content doc := by
  cases ev with
  | main | read | producer => rwa [(serve_cases hs).2.1]
  | consumer o =>
    rcases consumer_cases hs with ⟨hpc, -, p₁, hput, hserve⟩ | ⟨-, hserve⟩
    · obtain ⟨hget, hpw⟩ := hev o rfl
      obtain ⟨-, ret, hcall, -, -⟩ := put_cases hput
      have hA := h.ingestible ht hpc hget
      have hregular : Store.Regular content p.store
          (.put o p.server.queue.ckey p.server.queue.cdata) :=
        ⟨hA.dbGet, hpw, hA.block, hA.room, hA.count⟩
      obtain ⟨s', r, hstep, -, hdur'⟩ := hdur.put whd hregular
      rw [Store.durableStep, hcall, Option.map_some, Option.some_inj, Prod.mk.injEq] at hstep
      rw [(serve_cases hserve).2.1, hstep.1]
      exact hdur'
    · rwa [(serve_cases hserve).2.1]

omit [DecidableEq P] in
/-- The calls so far were for the first blocks of the input. -/
theorem Inv.keys_prefix (h : p.Inv whd content pair s₀ input₀) :
    p.rets.map Prod.fst <+: input₀.map fun b => (pair b).1 := by
  obtain ⟨e, d, hinv⟩ := h.running.inv
  have hcalls : p.calls.map PutCall.pair <+: input₀.map pair := by
    rw [h.calls, ← h.source]
    exact hinv.inOrder.trans (List.prefix_append _ _)
  have hkeys := hcalls.map Prod.fst
  rw [List.map_map, List.map_map] at hkeys
  rw [Store.map_fst_ingest h.ingest]
  exact hkeys

theorem durable_exec {q₀ : QueueState K Block} (h₀ : q₀.Initial)
    (ht : Takes content pair hashToIndex s₀ input₀) (hdur : s₀.Durable content doc)
    {evs : List PipelineEvent} (hevs : ∀ ev ∈ evs, Transfers ev)
    (hp : Runs.exec (step whd pair hashToIndex) (started q₀ input₀ s₀) evs = some p) :
    p.Inv whd content pair s₀ input₀ ∧ p.store.Durable content doc :=
  Runs.Each.exec_invariant (C := fun _ ev => Transfers ev)
    (I := fun p => p.Inv whd content pair s₀ input₀ ∧ p.store.Durable content doc)
    (fun _ _ _ hI hC hs =>
      ⟨hI.1.step ht (fun o ho => (hC o ho).1) hs, hI.1.durable_step ht hC hI.2 hs⟩)
    (Runs.Each.of_forall_mem hevs) ⟨inv_started h₀ ht, hdur⟩ hp

end Pipeline

/-- `main` has released the chunk files, and no call of `put_new_chunk` was under way then or has
begun since. -/
def Pipeline.Returned (p : Pipeline B K P) : Prop :=
  p.server.mpc = .finished ∧ p.server.queue.cpc ≠ .put

instance (p : Pipeline B K P) : Decidable p.Returned :=
  inferInstanceAs (Decidable (_ ∧ _))

namespace Life

/-- The store the next process starts with, and what the calls of `put_new_chunk` returned. -/
def run (whd : WriteHashDb K) (pair : B → K × Block) (hashToIndex : K → ℤ)
    (doc : List (XmlEvent P)) (s : Store K P) (life : Life B K) :
    Option (Store K P × List (K × ℤ)) :=
  (Runs.exec (Pipeline.step whd pair hashToIndex) (.started life.queue life.input s)
    life.evs).bind fun p =>
      if p.Returned then
        (p.store.restart doc life.env life.base).map fun s => (s, p.rets)
      else none

/-- The threads are at their start, the store takes the blocks of the input, the transfers succeed,
and the threads can follow the schedule until `main` returns with no call under way. -/
structure Regular (whd : WriteHashDb K) (content : K → Block) (pair : B → K × Block)
    (hashToIndex : K → ℤ) (s : Store K P) (life : Life B K) : Prop where
  initial : life.queue.Initial
  takes : Pipeline.Takes content pair hashToIndex s life.input
  transfers : ∀ ev ∈ life.evs, Pipeline.Transfers ev
  returns : ∃ p, Runs.exec (Pipeline.step whd pair hashToIndex) (.started life.queue life.input s)
    life.evs = some p ∧ p.Returned

variable {whd : WriteHashDb K} {content : K → Block} {pair : B → K × Block} {hashToIndex : K → ℤ}
  {doc : List (XmlEvent P)} {s : Store K P}

/-- One life. -/
theorem Regular.run {life : Life B K} (h : life.Regular whd content pair hashToIndex s)
    (hdoc : TotalFirst doc) (hnd : (paths doc).Nodup) (hdur : s.Durable content doc) :
    ∃ s' rets, life.run whd pair hashToIndex doc s = some (s', rets) ∧ s'.Durable content doc ∧
      Store.Ingested content s s' rets ∧
      rets.map Prod.fst <+: life.input.map fun b => (pair b).1 := by
  obtain ⟨p, hexec, hpc⟩ := h.returns
  obtain ⟨hinv, hp⟩ := Pipeline.durable_exec h.initial h.takes hdur h.transfers hexec
  obtain ⟨s', r, hstep, hcounts, hdur'⟩ := hp.restart hdoc hnd whd life.env life.base
  obtain ⟨s₁, hrestart, heq⟩ := Option.map_eq_some_iff.1 hstep
  obtain ⟨rfl, rfl⟩ := Prod.mk.inj heq
  refine ⟨s₁, p.rets, ?_, hdur', ?_, hinv.keys_prefix⟩
  · rw [Life.run, hexec, Option.bind_some, if_pos hpc, hrestart, Option.map_some]
  · have hcounts' : s₁.counts = p.store.counts := (Prod.mk.inj (Option.some.inj hcounts)).1.symm
    exact hinv.ingested.of_counts hcounts' hdur'

/-- Any number of lives, by induction on them. -/
theorem run_lives (hdoc : TotalFirst doc) (hnd : (paths doc).Nodup) :
    ∀ {lives : List (Life B K)} {s : Store K P}, s.Durable content doc →
      Runs.Each (fun s life => (run whd pair hashToIndex doc s life).map Prod.fst)
        (Regular whd content pair hashToIndex) s lives →
      ∃ s' rs, Runs.trace (run whd pair hashToIndex doc) s lives =
        some (s', rs) ∧ s'.Durable content doc ∧ Store.Ingested content s s' rs.flatten ∧
        List.Forall₂ (fun life rets => rets.map Prod.fst <+: life.input.map fun b => (pair b).1)
          lives rs
  | [], s, hdur, _ =>
    ⟨s, [], rfl, hdur, Store.ingested_nil hdur.wellFormed hdur.sized hdur.holds, .nil⟩
  | life :: lives, s, hdur, ⟨hlife, hrest⟩ => by
    obtain ⟨s₁, rets, hrun, hdur₁, hing, hkeys⟩ := hlife.run hdoc hnd hdur
    obtain ⟨s', rs, htrace, hdur', hing', hkeys'⟩ :=
      run_lives hdoc hnd hdur₁ (hrest s₁ (by simp only [hrun, Option.map_some]))
    refine ⟨s', rets :: rs, ?_, hdur', hing.trans hing', .cons hkeys hkeys'⟩
    rw [Runs.trace, hrun, Option.bind_some, htrace, Option.map_some]

/-- After any number of lives, each of which puts the first blocks of its input, the blocks put with
success are there : they are counted and can be read. -/
theorem lives_durable (whd : WriteHashDb K) (content : K → Block) (pair : B → K × Block)
    (hashToIndex : K → ℤ) {doc : List (XmlEvent P)} (hdoc : TotalFirst doc)
    (hnd : (paths doc).Nodup) {s : Store K P} (hdur : s.Durable content doc)
    {lives : List (Life B K)}
    (hC : Runs.Each (fun s life => (run whd pair hashToIndex doc s life).map Prod.fst)
      (Regular whd content pair hashToIndex) s lives) :
    ∃ s' rs, Runs.trace (run whd pair hashToIndex doc) s lives =
        some (s', rs) ∧
      List.Forall₂ (fun life rets => rets.map Prod.fst <+: life.input.map fun b => (pair b).1)
        lives rs ∧
      (∀ k, s'.refCount k = s.refCount k + rs.flatten.count (k, 0)) ∧
      ∀ k, (s.db k).isSome ∨ (k, 0) ∈ rs.flatten → ∀ size offset : ℕ, offset + size ≤ 4096 →
        s'.blockRead {} k size offset = some (pread (content k).val size offset) := by
  obtain ⟨s', rs, htrace, hdur', hing, hkeys⟩ := run_lives hdoc hnd hdur hC
  refine ⟨s', rs, htrace, hkeys, hing.refCount, fun k hk size offset hle => ?_⟩
  obtain ⟨bd, hbd⟩ := Option.isSome_iff_exists.1 ((hing.isSome k).2 hk)
  rw [hdur'.wellFormed.blockRead_inside hdur'.holds rfl rfl k hle, hbd, Option.map_some]

/-- A server that stores one block. -/
def oneBlockLife : Life ℕ ℕ where
  queue := Pipeline.freshQueue 0 (Store.fillBlock 0)
  input := [7]
  evs := Pipeline.oneBlock ++ [.main, .main, .main]
  env := ⟨fun _ _ _ => 0, fun _ => 0⟩
  base := (Store.oneEmptyFile ℕ).cfi

theorem regular_oneBlockLife : oneBlockLife.Regular (.insert ℕ) (fun _ => Store.fillBlock 1)
    Pipeline.onePair (fun _ => 0) (Store.oneEmptyFile ℕ) where
  initial := Pipeline.initial_freshQueue _ _
  takes :=
    have hdur := Store.durable_oneEmptyFile (K := ℕ) fun _ => Store.fillBlock 1
    { wellFormed := hdur.wellFormed
      sized := hdur.sized
      holds := hdur.holds
      index := fun _ _ => rfl
      block := fun _ _ => rfl
      count := fun _ => by simp [Store.refCount, Store.oneEmptyFile, oneBlockLife]
      room := by decide +kernel }
  transfers := by
    rintro ev hev o rfl
    obtain rfl : o = {} := by simpa [oneBlockLife, Pipeline.oneBlock] using hev
    exact ⟨rfl, rfl⟩
  returns := by
    have hrun : (Runs.exec (Pipeline.step (.insert ℕ) Pipeline.onePair fun _ => 0)
        (.started oneBlockLife.queue oneBlockLife.input (Store.oneEmptyFile ℕ))
          oneBlockLife.evs).map (fun p => (p.server.mpc, p.server.queue.cpc)) =
            some (.finished, .waitFull) := by
      decide +kernel
    obtain ⟨p, hp, heq⟩ := Option.map_eq_some_iff.1 hrun
    obtain ⟨hmpc, hcpc⟩ := Prod.mk.inj heq
    exact ⟨p, hp, hmpc, by simp [hcpc]⟩

/-- The block is there in the next life. -/
theorem lives_durable_one : ∃ s' rs,
    Runs.trace (run (.insert ℕ) Pipeline.onePair (fun _ => 0) Store.oneFileDoc)
      (Store.oneEmptyFile ℕ) [oneBlockLife] = some (s', rs) ∧
    List.Forall₂ (fun life rets =>
      rets.map Prod.fst <+: life.input.map fun b => (Pipeline.onePair b).1) [oneBlockLife] rs ∧
    (∀ k, s'.refCount k = (Store.oneEmptyFile ℕ).refCount k + rs.flatten.count (k, 0)) ∧
    ∀ k, ((Store.oneEmptyFile ℕ).db k).isSome ∨ (k, 0) ∈ rs.flatten →
      ∀ size offset : ℕ, offset + size ≤ 4096 →
        s'.blockRead {} k size offset = some (pread (Store.fillBlock 1).val size offset) :=
  lives_durable (.insert ℕ) (fun _ => Store.fillBlock 1) Pipeline.onePair (fun _ => 0)
    Store.totalFirst_oneFileDoc Store.nodup_oneFileDoc (Store.durable_oneEmptyFile _)
    ⟨regular_oneBlockLife, fun _ _ => trivial⟩

end Life

end Agilefs
