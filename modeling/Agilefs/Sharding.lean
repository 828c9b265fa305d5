import Agilefs.BufferQueue
import Agilefs.ChunkStore

/-!
# Sharding by key

`hash_to_index` takes the first four bytes of a key as an `int`. `db_put`, `db_get` and
`db_del` index the database handles with it, `producer_thread_fun` the buffer queues. There is
one of each, so `shards_safe_iff` : a run of calls on the arrays that `DB_init` and
`thread_io_start` leave stays on entries that they initialised if and only if each key in it
starts with four zero bytes, and no database call is made when `DB_init` failed.

`main` does not look at what `DB_init` returned. The databases behind the handles are those of
`dbPut`, `dbGet` and `dbDel`.
-/

namespace Agilefs

open Function CInt ByteFile

/-- `HASH_SIZE`, with and without `__USE_SHA1__`. -/
def hashSize (sha1 : Bool) : ℕ := if sha1 then 20 else 16

/-- The bytes of a hash. -/
abbrev HashKey (sha1 : Bool) := {k : List UInt8 // k.length = hashSize sha1}

/-- `NUM_SERVER_THREADS`. -/
def numServerThreads : ℕ := 1

/-- `NUM_BUFFER_QUEUES`. -/
def numBufferQueues : ℕ := numServerThreads

/-- `NUM_SERVER_DBS`. -/
def numServerDbs : ℕ := numServerThreads

/-- `hash_to_index`. -/
def hashToIndex (hashKey : List UInt8) : ℤ := int32 (ofLe (hashKey.take 4))

/-- The index of the queue in `producer_thread_fun`, `*((int *)hash_key)`. -/
def queueIndex (hashKey : List UInt8) : ℤ := int32 (ofLe (hashKey.take 4))

theorem hashToIndex_eq_zero_iff {k : List UInt8} : hashToIndex k = 0 ↔ ∀ b ∈ k.take 4, b = 0 := by
  have hlt : ofLe (k.take 4) < 2 ^ 32 :=
    (ofLe_lt _).trans_le (Nat.pow_le_pow_right (n := 256) (by omega) (k.length_take_le 4))
  rw [← ofLe_eq_zero_iff, hashToIndex, int32, Int.bmod]
  omega

/-- `a[i]`, if `i` is an index of the array. -/
def entryAt {α : Type*} (a : List α) (i : ℤ) : Option α := if 0 ≤ i then a[i.toNat]? else none

/-! ## The arrays -/

/-- An entry of `dbp`, with the database behind a handle that is open. -/
inductive DbHandle (K : Type*) where
  | null
  | created
  | opened (db : Db K)
  | closed

namespace DbHandle

variable {K : Type*}

/-- The database behind the handle. -/
def db : DbHandle K → Option (Db K)
  | opened db => some db
  | _ => none

/-- `if (dbp[i]) dbp[i]->close(dbp[i], 0)`. -/
def close : DbHandle K → DbHandle K
  | null => null
  | _ => closed

end DbHandle

/-- The arrays `dbp` and `bq_array`, a queue being `none` before its `init_buffer_queue`, and
`producer_thread_running`. -/
structure Shards (K D : Type*) where
  dbp : List (DbHandle K)
  bqs : List (Option (BufferQueue K D))
  producerThreadRunning : Bool

/-- How the calls made by `DB_init` and `thread_io_start` end, the databases in the files opened,
and what is in the memory of a new queue. -/
structure StartOutcome (K D : Type*) where
  dbEnvCreate : ℤ
  dbEnvOpen : ℤ
  dbCreate : ℕ → ℤ
  dbOpen : ℕ → ℤ
  stored : ℕ → Db K
  initBufferQueue : ℕ → ℤ
  hk : ℕ → K
  cd : ℕ → D
  producerThreadStart : ℤ

namespace StartOutcome

variable {K D : Type*}

/-- Every call that `DB_init` makes succeeds. -/
structure Opens (o : StartOutcome K D) : Prop where
  dbEnvCreate : o.dbEnvCreate = 0
  dbEnvOpen : o.dbEnvOpen = 0
  dbCreate : ∀ i < numServerDbs, o.dbCreate i = 0
  dbOpen : ∀ i < numServerDbs, o.dbOpen i = 0

/-- `DB_clean`. -/
def dbClean (cnt : ℕ) (dbp : List (DbHandle K)) : List (DbHandle K) :=
  dbp.mapIdx fun i h => if i < min cnt numServerDbs then h.close else h

/-- The loop of `DB_init` over the last `n` entries, which start at `i`. -/
def dbInitLoop (o : StartOutcome K D) :
    ℕ → ℕ → List (DbHandle K) → List (DbHandle K) × ℤ
  | 0, _, dbp => (dbp, 0)
  | n + 1, i, dbp =>
    if o.dbCreate i ≠ 0 then (dbClean i dbp, -1)
    else
      let dbp := dbp.set i .created
      if o.dbOpen i ≠ 0 then (dbClean i dbp, -1)
      else dbInitLoop o n (i + 1) (dbp.set i (.opened (o.stored i)))

/-- `DB_init`. -/
def dbInit (o : StartOutcome K D) (dbp : List (DbHandle K)) : List (DbHandle K) × ℤ :=
  if o.dbEnvCreate ≠ 0 then (dbp, -1)
  else if o.dbEnvOpen ≠ 0 then (dbp, -1)
  else o.dbInitLoop numServerDbs 0 dbp

/-- The loop of `thread_io_start` over the last `n` queues, which start at `i`. -/
def initQueues (o : StartOutcome K D) :
    ℕ → ℕ → List (Option (BufferQueue K D)) → List (Option (BufferQueue K D)) × ℤ
  | 0, _, bqs => (bqs, 0)
  | n + 1, i, bqs =>
    if o.initBufferQueue i ≠ 0 then (bqs, o.initBufferQueue i)
    else initQueues o n (i + 1) (bqs.set i (some ⟨buffQueueSize, 0, false, 0, 0, o.hk, o.cd⟩))

/-- The arrays after `DB_init` and `thread_io_start`, as `main` calls them. -/
def started (o : StartOutcome K D) : Shards K D :=
  let dbp := (o.dbInit (List.replicate numServerDbs .null)).1
  let (bqs, ret) := o.initQueues numBufferQueues 0 (List.replicate numBufferQueues none)
  ⟨dbp, bqs, ret = 0 ∧ o.producerThreadStart = 0⟩

end StartOutcome

/-! ## Calls -/

/-- A call, with what the database returns. `consume` takes a pair from the queue of a consumer
thread. -/
inductive ShardCall (K D : Type*) where
  | put (hash : K) (pbd : BlockData) (rc : ℤ)
  | get (hash : K) (rc : ℤ)
  | del (hash : K) (rc : ℤ)
  | enqueue (hashKey : K) (chunkData : D)
  | consume (threadIndex : ℕ)

variable {sha1 : Bool} {D : Type*}

namespace BufferQueue

variable {H : Type*}

/-- The producer waits for a free slot and fills it. -/
def push (bq : BufferQueue H D) (hashKey : H) (chunkData : D) : BufferQueue H D :=
  if bq.empty = 0 then bq
  else { bq with empty := bq.empty - 1, cd := update bq.cd bq.tail chunkData,
                 hk := update bq.hk bq.tail hashKey,
                 tail := (bq.tail + 1) &&& (buffQueueSize - 1), full := bq.full + 1 }

/-- The consumer waits for a filled slot and frees it. -/
def pop (bq : BufferQueue H D) : BufferQueue H D :=
  if bq.full = 0 then bq
  else { bq with full := bq.full - 1, head := (bq.head + 1) &&& (buffQueueSize - 1),
                 empty := bq.empty + 1 }

end BufferQueue

namespace Shards

/-- `db_put`. -/
def dbPut (s : Shards (HashKey sha1) D) (rc : ℤ) (hash : HashKey sha1) (pbd : BlockData) :
    Option (Shards (HashKey sha1) D × ℤ) :=
  let i := hashToIndex hash.val
  ((entryAt s.dbp i).bind DbHandle.db).map fun db =>
    let (db, ret) := Agilefs.dbPut rc db hash pbd
    ({ s with dbp := s.dbp.set i.toNat (.opened db) }, ret)

/-- `db_get`. -/
def dbGet (s : Shards (HashKey sha1) D) (rc : ℤ) (hash : HashKey sha1) :
    Option (ℤ × BlockData) :=
  let i := hashToIndex hash.val
  ((entryAt s.dbp i).bind DbHandle.db).map fun db => Agilefs.dbGet rc db hash

/-- `db_del`. -/
def dbDel (s : Shards (HashKey sha1) D) (rc : ℤ) (hash : HashKey sha1) :
    Option (Shards (HashKey sha1) D × ℤ) :=
  let i := hashToIndex hash.val
  ((entryAt s.dbp i).bind DbHandle.db).map fun db =>
    let (db, ret) := Agilefs.dbDel rc db hash
    ({ s with dbp := s.dbp.set i.toNat (.opened db) }, ret)

/-- An iteration of `producer_thread_fun` that got a pair. -/
def enqueue (s : Shards (HashKey sha1) D) (hashKey : HashKey sha1) (chunkData : D) :
    Option (Shards (HashKey sha1) D) :=
  if s.producerThreadRunning then
    let hashIndex := queueIndex hashKey.val
    (entryAt s.bqs hashIndex).join.map fun bq =>
      { s with bqs := s.bqs.set hashIndex.toNat (some (bq.push hashKey chunkData)) }
  else some s

/-- One call. -/
def step (s : Shards (HashKey sha1) D) :
    ShardCall (HashKey sha1) D → Option (Shards (HashKey sha1) D)
  | .put hash pbd rc => (s.dbPut rc hash pbd).map Prod.fst
  | .get hash rc => (s.dbGet rc hash).map fun _ => s
  | .del hash rc => (s.dbDel rc hash).map Prod.fst
  | .enqueue hashKey chunkData => s.enqueue hashKey chunkData
  | .consume i => some { s with bqs := s.bqs.modify i (Option.map BufferQueue.pop) }

end Shards

namespace ShardCall

/-- The key of the call. -/
def key : ShardCall (HashKey sha1) D → Option (HashKey sha1)
  | put hash _ _ => some hash
  | get hash _ => some hash
  | del hash _ => some hash
  | enqueue hashKey _ => some hashKey
  | consume _ => none

/-- The call goes to the database. -/
def CallsDb : ShardCall (HashKey sha1) D → Prop
  | put .. | get .. | del .. => True
  | enqueue .. | consume _ => False

/-- The index with which the call selects its entry for the key, and the length of the array. -/
def index : ShardCall (HashKey sha1) D → HashKey sha1 → ℤ
  | put .., k | get .., k | del .., k => hashToIndex k.val
  | enqueue .., k | consume _, k => queueIndex k.val

/-- The length of the array that the call indexes. -/
def bound : ShardCall (HashKey sha1) D → ℕ
  | put .. | get .. | del .. => numServerDbs
  | enqueue .. | consume _ => numBufferQueues

/-- The index is one of the array. -/
def InRange (c : ShardCall (HashKey sha1) D) : Prop :=
  ∀ k, c.key = some k → 0 ≤ c.index k ∧ c.index k < c.bound

/-- The key of the call starts with four zero bytes. -/
def ZeroIndexed (c : ShardCall (HashKey sha1) D) : Prop :=
  ∀ k, c.key = some k → ∀ b ∈ k.val.take 4, b = 0

/-- All calls select the same index for a key. -/
theorem index_eq (c c' : ShardCall (HashKey sha1) D) (k : HashKey sha1) :
    c.index k = c'.index k := by
  cases c <;> cases c' <;> rfl

theorem inRange_iff {c : ShardCall (HashKey sha1) D} : c.InRange ↔ c.ZeroIndexed := by
  have hindex : ∀ k, c.index k = hashToIndex k.val := fun k => by cases c <;> rfl
  have hbound : c.bound = 1 := by cases c <;> rfl
  refine forall_congr' fun k => imp_congr_right fun _ => ?_
  rw [hindex, hbound, ← hashToIndex_eq_zero_iff]
  omega

end ShardCall

/-! ## The start -/

section Start

variable {K : Type*}

/-- The handle at `j` is open. -/
def Opened (dbp : List (DbHandle K)) (j : ℕ) : Prop := ∃ db, dbp[j]? = some (.opened db)

/-- The queue at `j` is initialised. -/
def Initialised (bqs : List (Option (BufferQueue K D))) (j : ℕ) : Prop :=
  ∃ bq, bqs[j]? = some (some bq)

theorem opened_set {dbp : List (DbHandle K)} {i j : ℕ} {db : Db K} :
    Opened (dbp.set i (.opened db)) j ↔ if i = j then j < dbp.length else Opened dbp j := by
  unfold Opened
  rw [List.getElem?_set]
  split_ifs <;> simp_all

theorem not_opened_set {dbp : List (DbHandle K)} {i j : ℕ} (h : Opened (dbp.set i .created) j) :
    Opened dbp j ∧ j ≠ i := by
  obtain ⟨db, hdb⟩ := h
  rw [List.getElem?_set] at hdb
  split_ifs at hdb with hij
  · simp at hdb
  · exact ⟨⟨db, hdb⟩, Ne.symm hij⟩

/-- `DB_clean` leaves no handle open if it gets the number of those that are. -/
theorem not_opened_dbClean {dbp : List (DbHandle K)} {cnt : ℕ} (hcnt : cnt ≤ numServerDbs)
    (h : ∀ j, Opened dbp j → j < cnt) (j : ℕ) : ¬Opened (StartOutcome.dbClean cnt dbp) j := by
  rintro ⟨db, hdb⟩
  rw [StartOutcome.dbClean, List.getElem?_mapIdx, Option.map_eq_some_iff] at hdb
  obtain ⟨x, hx, hclose⟩ := hdb
  split_ifs at hclose with hj
  · cases x <;> simp [DbHandle.close] at hclose
  · have := h j ⟨db, hclose ▸ hx⟩
    omega

namespace StartOutcome

variable {o : StartOutcome K D}

theorem opened_dbInitLoop : ∀ (n i : ℕ) {dbp : List (DbHandle K)}, i + n ≤ dbp.length →
    (∀ j < i + n, o.dbCreate j = 0 ∧ o.dbOpen j = 0) → (∀ j < i, Opened dbp j) →
      ∀ j < i + n, Opened (o.dbInitLoop n i dbp).1 j
  | 0, i, dbp, _, _, h => h
  | n + 1, i, dbp, hlen, hok, h => by
    obtain ⟨hcreate, hopen⟩ := hok i (by omega)
    intro j hj
    rw [dbInitLoop, if_neg (by simp [hcreate])]
    dsimp only
    rw [if_neg (by simp [hopen]), List.set_set]
    refine opened_dbInitLoop n (i + 1) (by simp; omega) (fun j hj => hok j (by omega))
      (fun j hj => opened_set.2 ?_) j (by omega)
    split_ifs with hij
    · omega
    · exact h j (by omega)

theorem not_opened_dbInitLoop : ∀ (n i : ℕ) {dbp : List (DbHandle K)}, i + n ≤ numServerDbs →
    (∃ j, i ≤ j ∧ j < i + n ∧ ¬(o.dbCreate j = 0 ∧ o.dbOpen j = 0)) →
    (∀ j, Opened dbp j → j < i) → ∀ j, ¬Opened (o.dbInitLoop n i dbp).1 j
  | 0, i, dbp, _, ⟨j, _, _, _⟩, _ => by omega
  | n + 1, i, dbp, hlen, ⟨k, hik, hkn, hfail⟩, h => by
    intro j
    rw [dbInitLoop]
    dsimp only
    split_ifs with hcreate hopen
    · exact not_opened_dbClean (by omega) h j
    · exact not_opened_dbClean (by omega) (fun j hj => h j (not_opened_set hj).1) j
    · rw [List.set_set]
      have hne : k ≠ i := by
        rintro rfl
        exact hfail ⟨not_not.1 hcreate, not_not.1 hopen⟩
      refine not_opened_dbInitLoop n (i + 1) (by omega) ⟨k, by omega, by omega, hfail⟩
        (fun j hj => ?_) j
      rw [opened_set] at hj
      split_ifs at hj with hij
      · omega
      · exact (h j hj).trans (by omega)

theorem initialised_initQueues : ∀ (n i : ℕ) {bqs : List (Option (BufferQueue K D))},
    i + n ≤ bqs.length → (∀ j < i, Initialised bqs j) → (o.initQueues n i bqs).2 = 0 →
      ∀ j < i + n, Initialised (o.initQueues n i bqs).1 j
  | 0, i, bqs, _, h, _ => h
  | n + 1, i, bqs, hlen, h, hret => by
    intro j hj
    rw [initQueues] at hret ⊢
    split_ifs at hret ⊢ with hinit
    · exact absurd hret hinit
    · refine initialised_initQueues n (i + 1) (by simp; omega) (fun j hj => ?_) hret j (by omega)
      unfold Initialised
      rw [List.getElem?_set]
      split_ifs with hij hlt
      · exact ⟨_, rfl⟩
      · omega
      · exact h j (by omega)

end StartOutcome

end Start

/-! ## Runs -/

namespace Shards

variable {o : StartOutcome (HashKey sha1) D} {s s' : Shards (HashKey sha1) D}

/-- All handles are open if `DB_init` succeeded, and none is otherwise. A producer that runs finds
the queues initialised. -/
structure Ready (o : StartOutcome (HashKey sha1) D) (s : Shards (HashKey sha1) D) : Prop where
  opened : o.Opens → ∀ i < numServerDbs, Opened s.dbp i
  closed : ¬o.Opens → ∀ i, ¬Opened s.dbp i
  queues : s.producerThreadRunning → ∀ i < numBufferQueues, Initialised s.bqs i

theorem ready_started (o : StartOutcome (HashKey sha1) D) : Ready o o.started := by
  have hnull : ∀ j, ¬Opened (List.replicate numServerDbs (.null : DbHandle (HashKey sha1))) j := by
    rintro j ⟨db, hdb⟩
    simp [List.getElem?_replicate] at hdb
  refine ⟨fun ho i hi => ?_, fun ho i => ?_, fun hrun i hi => ?_⟩
  · simp only [StartOutcome.started, StartOutcome.dbInit, ho.dbEnvCreate, ho.dbEnvOpen, ne_eq,
      not_true_eq_false, if_false]
    exact StartOutcome.opened_dbInitLoop numServerDbs 0 (by simp)
      (fun j hj => ⟨ho.dbCreate j (by omega), ho.dbOpen j (by omega)⟩) (by simp) i (by omega)
  · simp only [StartOutcome.started, StartOutcome.dbInit]
    split_ifs with hcreate hopen
    · exact hnull i
    · exact hnull i
    · refine StartOutcome.not_opened_dbInitLoop numServerDbs 0 (by omega) ?_
        (fun j hj => (hnull j hj).elim) i
      by_contra hall
      push Not at hall
      exact ho ⟨not_not.1 hcreate, not_not.1 hopen, fun j hj => (hall j (by omega) (by omega)).1,
        fun j hj => (hall j (by omega) (by omega)).2⟩
  · have hret : (o.initQueues numBufferQueues 0 (List.replicate numBufferQueues none)).2 = 0 :=
      (of_decide_eq_true hrun).1
    exact StartOutcome.initialised_initQueues numBufferQueues 0 (by simp) (by simp) hret i
      (by omega)

theorem entryAt_zero {α : Type*} (a : List α) : entryAt a 0 = a[0]? :=
  rfl

theorem Ready.setDb (h : Ready o s) (ho : o.Opens) (db : Db (HashKey sha1)) :
    Ready o { s with dbp := s.dbp.set 0 (.opened db) } := by
  refine ⟨fun _ i hi => opened_set.2 ?_, fun hno => absurd ho hno, h.queues⟩
  split_ifs with hi0
  · obtain ⟨db', hdb'⟩ := h.opened ho i hi
    exact (List.getElem?_eq_some_iff.1 hdb').1
  · exact h.opened ho i hi

theorem Ready.setQueue (h : Ready o s) {bqs : List (Option (BufferQueue (HashKey sha1) D))}
    (hbqs : ∀ i, Initialised s.bqs i → Initialised bqs i) : Ready o { s with bqs := bqs } :=
  ⟨h.opened, h.closed, fun hrun i hi => hbqs i (h.queues hrun i hi)⟩

/-- The database of a key that starts with four zero bytes. -/
theorem Ready.exists_db (h : Ready o s) (ho : o.Opens) {k : HashKey sha1}
    (hk : ∀ b ∈ k.val.take 4, b = 0) :
    ∃ db, (entryAt s.dbp (hashToIndex k.val)).bind DbHandle.db = some db := by
  obtain ⟨db, hdb⟩ := h.opened ho 0 (by decide)
  exact ⟨db, by rw [hashToIndex_eq_zero_iff.2 hk, entryAt_zero, hdb]; rfl⟩

/-- Without an open handle there is no database. -/
theorem Ready.db_eq_none (h : Ready o s) (ho : ¬o.Opens) (i : ℤ) :
    (entryAt s.dbp i).bind DbHandle.db = none := by
  by_contra hne
  obtain ⟨db, hdb⟩ := Option.ne_none_iff_exists'.1 hne
  obtain ⟨x, hx, hxdb⟩ := Option.bind_eq_some_iff.1 hdb
  unfold entryAt at hx
  split_ifs at hx
  cases x with
  | opened db' => exact h.closed ho i.toNat ⟨db', hx⟩
  | null | created | closed => cases hxdb

/-- A call on a key that starts with four zero bytes stays on entries that are there. -/
theorem Ready.step (h : Ready o s) {c : ShardCall (HashKey sha1) D} (hz : c.ZeroIndexed)
    (hdb : c.CallsDb → o.Opens) : ∃ s', s.step c = some s' ∧ Ready o s' := by
  cases c with
  | put hash pbd rc =>
    have hk := hz hash rfl
    obtain ⟨db, heq⟩ := h.exists_db (hdb trivial) hk
    refine ⟨_, by simp only [Shards.step, dbPut, heq, Option.map_some]; rfl, ?_⟩
    rw [hashToIndex_eq_zero_iff.2 hk]
    exact h.setDb (hdb trivial) _
  | get hash rc =>
    obtain ⟨db, heq⟩ := h.exists_db (hdb trivial) (hz hash rfl)
    exact ⟨s, by simp only [Shards.step, dbGet, heq, Option.map_some], h⟩
  | del hash rc =>
    have hk := hz hash rfl
    obtain ⟨db, heq⟩ := h.exists_db (hdb trivial) hk
    refine ⟨_, by simp only [Shards.step, dbDel, heq, Option.map_some]; rfl, ?_⟩
    rw [hashToIndex_eq_zero_iff.2 hk]
    exact h.setDb (hdb trivial) _
  | enqueue hashKey chunkData =>
    have hidx : queueIndex hashKey.val = 0 := hashToIndex_eq_zero_iff.2 (hz hashKey rfl)
    by_cases hrun : s.producerThreadRunning
    · obtain ⟨bq, hbq⟩ := h.queues hrun 0 (by decide)
      refine ⟨_, by simp only [Shards.step, enqueue, hrun, if_true, hidx, entryAt_zero, hbq,
        Option.join_some, Option.map_some]; rfl, h.setQueue fun i ⟨q, hq⟩ => ?_⟩
      have hlen := (List.getElem?_eq_some_iff.1 hbq).1
      unfold Initialised
      rw [List.getElem?_set]
      split_ifs
      · exact ⟨_, rfl⟩
      · omega
      · exact ⟨q, hq⟩
    · exact ⟨s, if_neg hrun, h⟩
  | consume j =>
    refine ⟨_, rfl, h.setQueue fun i ⟨q, hq⟩ => ?_⟩
    unfold Initialised
    rw [List.getElem?_modify, hq]
    by_cases hij : j = i
    · exact ⟨q.pop, by simp [hij]⟩
    · exact ⟨q, by simp [hij]⟩

/-- A database call goes through only if `DB_init` succeeded. -/
theorem Ready.opens_of_step (h : Ready o s) {c : ShardCall (HashKey sha1) D} (hdb : c.CallsDb)
    (hs : s.step c = some s') : o.Opens := by
  by_contra ho
  cases c with
  | put hash pbd rc => simp [Shards.step, dbPut, h.db_eq_none ho] at hs
  | get hash rc => simp [Shards.step, dbGet, h.db_eq_none ho] at hs
  | del hash rc => simp [Shards.step, dbDel, h.db_eq_none ho] at hs
  | enqueue hashKey chunkData => exact hdb
  | consume j => exact hdb

/-- Every call of the run selects an entry of its array that is initialised, and the calls select
the same index for a key. -/
def Safe (o : StartOutcome (HashKey sha1) D) (calls : List (ShardCall (HashKey sha1) D)) : Prop :=
  Runs.Always step (fun _ => True) (fun _ c _ => c.InRange) o.started calls ∧
    ∀ c ∈ calls, ∀ c' ∈ calls, ∀ k, c.key = some k → c'.key = some k → c.index k = c'.index k

/-- A run is safe if and only if its keys start with four zero bytes, and it makes no database
call when `DB_init` failed. -/
theorem shards_safe_iff (o : StartOutcome (HashKey sha1) D)
    (calls : List (ShardCall (HashKey sha1) D)) :
    Safe o calls ↔ ∀ c ∈ calls, c.ZeroIndexed ∧ (c.CallsDb → o.Opens) := by
  rw [Safe, and_iff_left fun c _ c' _ k _ _ => ShardCall.index_eq c c' k]
  refine Runs.always_iff_forall_mem (I := Ready o) (A := fun _ _ => True) (fun _ _ => trivial)
    (fun s c h _ hC => ?_) (fun s c s' h _ hs hR _ => ?_) (ready_started o)
    (Runs.Each.of_forall_mem fun _ _ => trivial)
  · obtain ⟨s', hs', h'⟩ := h.step hC.1 hC.2
    exact ⟨s', hs', ShardCall.inRange_iff.2 hC.1, h'⟩
  · exact ⟨ShardCall.inRange_iff.1 hR, fun hdb => h.opens_of_step hdb hs⟩

/-- The key that starts with `x` and has the fourth byte `y`. -/
def keyWith (x y : UInt8) : HashKey false := ⟨x :: 0 :: 0 :: y :: List.replicate 12 0, rfl⟩

/-- All calls of the start succeed, on empty databases. -/
def allOpen : StartOutcome (HashKey false) Unit where
  dbEnvCreate := 0
  dbEnvOpen := 0
  dbCreate _ := 0
  dbOpen _ := 0
  stored _ _ := none
  initBufferQueue _ := 0
  hk _ := keyWith 0 0
  cd _ := ()
  producerThreadStart := 0

/-- A key that starts with `1` selects the entry after the last one, a key whose fourth byte is
`0x80` an entry before the first. -/
theorem shards_counterexample :
    ¬Safe allOpen [.get (keyWith 1 0) 0] ∧
    hashToIndex (keyWith 1 0).val = 1 ∧ allOpen.started.step (.get (keyWith 1 0) 0) = none ∧
    queueIndex (keyWith 0 0x80).val < 0 ∧
    allOpen.started.step (.enqueue (keyWith 0 0x80) ()) = none := by
  have hdbp : allOpen.started.dbp = [.opened fun _ => none] := rfl
  have hone : hashToIndex (keyWith 1 0).val = 1 := by decide
  have hneg : queueIndex (keyWith 0 0x80).val < 0 := by decide +kernel
  have hget : allOpen.started.step (.get (keyWith 1 0) 0) = none := by
    simp [step, dbGet, hone, hdbp, entryAt]
  have henqueue : allOpen.started.step (.enqueue (keyWith 0 0x80) ()) = none := by
    have hrun : allOpen.started.producerThreadRunning = true := rfl
    simp [step, enqueue, hrun, entryAt, not_le.2 hneg]
  refine ⟨fun h => ?_, hone, hget, hneg, henqueue⟩
  obtain ⟨-, s', hs', -⟩ := h.1
  rw [hget] at hs'
  cases hs'

end Shards

end Agilefs
