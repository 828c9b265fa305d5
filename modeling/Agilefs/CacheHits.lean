import Agilefs.FuseCache
import Agilefs.Runs

/-!
# What a cache hit returns

Runs of `cache_write` and `cache_read` from the zero-initialised `cache`, where the block written
with a hash is a function of the hash. A hit should return the first bytes of the block of an
earlier write of its hash.

The loop of `cache_read` means to look at filled ways only, but its test `cache.life_arr>0` is one
of an address, and the loop of `cache_write` has no test : a way never filled holds the zero hash.
`Inv` says what the two kinds of ways hold. `cacheRead_of_lastWay` : a hit copies from the last way
of its line with its hash. `runs_hit_iff` is when every read of a run is right, and
`runs_hit_of_ne_zero` the case of reads of hashes other than zero.
-/

namespace Agilefs

namespace Tags

/-- The last way of its line that holds the hash. -/
def LastWay (t : Tags) (hash : Key) (way : ℕ) : Prop :=
  way < cacheWays ∧ t.hashArr (lineOf hash) way = hash ∧
    ∀ w, way < w → w < cacheWays → t.hashArr (lineOf hash) w ≠ hash

theorem LastWay.unique {t : Tags} {hash : Key} {way way' : ℕ} (h : t.LastWay hash way)
    (h' : t.LastWay hash way') : way = way' := by
  rcases lt_trichotomy way way' with hlt | rfl | hlt
  · exact absurd h'.2.1 (h.2.2 way' hlt h'.1)
  · rfl
  · exact absurd h.2.1 (h'.2.2 way hlt h.1)

/-- The way found so far is the last one that holds the hash. -/
theorem readWay_range {line : ℕ} {hash : Key} {t : Tags} : ∀ {n way : ℕ},
    ((List.range n).foldl (readWay line hash) (none, t)).1 = some way →
      ∀ w, way < w → w < n → t.hashArr line w ≠ hash
  | 0, _, _ => fun _ _ h => absurd h (Nat.not_lt_zero _)
  | n + 1, way, h => by
    rw [List.range_succ, List.foldl_append, List.foldl_cons, List.foldl_nil, readWay] at h
    rw [(foldl_readWay line hash (List.range n) none t).1] at h
    intro w hw hlt
    split_ifs at h with hn
    · obtain rfl := Option.some.inj h
      omega
    · rcases Nat.lt_succ_iff_lt_or_eq.1 hlt with hlt | rfl
      · exact readWay_range h w hw hlt
      · exact hn

theorem readWays_lastWay {t : Tags} {hash : Key} {way : ℕ}
    (h : (t.readWays (lineOf hash) hash).1 = some way) : t.LastWay hash way :=
  ⟨(readWays_some h).1, (readWays_some h).2, readWay_range h⟩

end Tags

namespace Cache

/-- A hit copies from the last way that holds the hash. -/
theorem cacheRead_of_lastWay {c : Cache} {hash : Key} {way : ℕ} (h : c.LastWay hash way)
    (size : ℕ) :
    (c.cacheRead hash size).2 = (c.blockArr (lineOf hash) way).val.take size := by
  unfold cacheRead
  rcases hread : c.readWays (lineOf hash) hash with ⟨_ | way', t⟩
  · exact absurd ⟨way, h.1, h.2.1⟩ (Tags.readWays_none (by rw [hread]))
  · rw [h.unique (Tags.readWays_lastWay (by rw [hread]))]

/-- A read of a hash that no way holds copies nothing. -/
theorem exists_lastWay {c : Cache} {hash : Key} {size : ℕ} (h : (c.cacheRead hash size).2 ≠ []) :
    ∃ way, c.LastWay hash way := by
  unfold cacheRead at h
  rcases hread : c.readWays (lineOf hash) hash with ⟨_ | way, t⟩
  · simp [hread] at h
  · exact ⟨way, Tags.readWays_lastWay (by rw [hread])⟩

end Cache

namespace CacheRun

/-! ## Runs of the two calls -/

/-- A call in a run; the block of a `cache_write` is the content of its hash, and its size is
the size of a block. -/
inductive Call
  | write (hash : Key)
  | read (hash : Key) (size : {n : ℕ // 1 ≤ n ∧ n ≤ 4096})

/-- The cache, the ways `cache_write` copied to, and the hashes written. -/
structure State where
  cache : Cache
  filled : List (ℕ × ℕ)
  written : List Key

/-- The start of the program. -/
def start : State := ⟨Cache.empty, [], []⟩

variable (content : Key → Block)

/-- One call. -/
def step (s : State) : Call → Option State
  | .write hash => some ⟨s.cache.cacheWrite hash (content hash).val,
      match (s.cache.writeWays (lineOf hash) hash).1 with
      | some way => (lineOf hash, way) :: s.filled
      | none => s.filled,
      hash :: s.written⟩
  | .read hash size => some { s with cache := (s.cache.cacheRead hash size).1 }

/-- A read that copies anything copies the first `size` bytes of the block of an earlier write
of its hash. -/
def Hit (s : State) : Call → State → Prop
  | .write _, _ => True
  | .read hash size, _ => (s.cache.cacheRead hash size).2 ≠ [] →
      hash ∈ s.written ∧ (s.cache.cacheRead hash size).2 = (content hash).val.take size

/-- The last way that holds the hash of a read was filled, or its hash was written before and
the block begins with zeros as the ways never filled do. -/
def Filled (s : State) : Call → Prop
  | .write _ => True
  | .read hash size => ∀ way, s.cache.LastWay hash way → (lineOf hash, way) ∈ s.filled ∨
      hash ∈ s.written ∧ (content hash).val.take size = List.replicate size 0

/-- A filled way holds the block of a written hash; the others are zero. -/
structure Inv (s : State) : Prop where
  filled : ∀ line way, (line, way) ∈ s.filled → s.cache.hashArr line way ∈ s.written ∧
    s.cache.blockArr line way = content (s.cache.hashArr line way)
  unfilled : ∀ line way, (line, way) ∉ s.filled → s.cache.hashArr line way = Key.zero ∧
    s.cache.blockArr line way = Store.fillBlock 0

variable {content}

theorem inv_start : Inv content start :=
  ⟨fun _ _ h => absurd h (by simp [start]), fun _ _ _ => ⟨rfl, rfl⟩⟩

theorem Inv.write {s s' : State} {hash : Key} (hs : Inv content s)
    (h : step content s (.write hash) = some s') : Inv content s' := by
  obtain rfl := Option.some.inj h
  rcases hway : (s.cache.writeWays (lineOf hash) hash).1 with _ | way
  · -- a refill : the hash is one more written, and only lives change
    obtain ⟨hhash, hblock⟩ := Cache.cacheWrite_of_none hway
    refine ⟨fun line way hmem => ?_, fun line way hmem => ?_⟩
    · rw [hhash, hblock]
      exact (hs.filled line way hmem).imp_left (List.mem_cons_of_mem _)
    · rw [hhash, hblock]
      exact hs.unfilled line way hmem
  · obtain ⟨hhash, hblock⟩ := Cache.cacheWrite_of_some hway
    refine ⟨fun line way' hmem => ?_, fun line way' hmem => ?_⟩
    · rw [hhash, hblock, setAt_apply, setAt_apply, Block.copy_val]
      split_ifs with heq
      · exact ⟨List.mem_cons_self, rfl⟩
      · refine (hs.filled line way' ?_).imp_left (List.mem_cons_of_mem _)
        exact (List.mem_cons.1 hmem).resolve_left fun h => heq (Prod.mk.inj h)
    · rw [List.mem_cons, not_or, Prod.mk.injEq] at hmem
      rw [hhash, hblock, setAt_apply, setAt_apply, if_neg hmem.1, if_neg hmem.1]
      exact hs.unfilled line way' hmem.2

theorem Inv.read {s s' : State} {hash : Key} {size : {n : ℕ // 1 ≤ n ∧ n ≤ 4096}}
    (hs : Inv content s) (h : step content s (.read hash size) = some s') : Inv content s' := by
  obtain rfl := Option.some.inj h
  refine ⟨fun line way hmem => ?_, fun line way hmem => ?_⟩
  · simpa only [Cache.cacheRead_hashArr, Cache.cacheRead_blockArr] using hs.filled line way hmem
  · simpa only [Cache.cacheRead_hashArr, Cache.cacheRead_blockArr] using hs.unfilled line way hmem

/-- Each call keeps the invariant. -/
theorem Inv.step {s s' : State} {call : Call} (hs : Inv content s)
    (h : step content s call = some s') : Inv content s' := by
  cases call with
  | write hash => exact hs.write h
  | read hash size => exact hs.read h

theorem take_fillBlock (b : UInt8) {size : ℕ} (h : size ≤ 4096) :
    (Store.fillBlock b).val.take size = List.replicate size b := by
  rw [Store.fillBlock, List.take_replicate, min_eq_left h]

/-- A hit on a filled way is right. -/
theorem Inv.hit_of_filled {s s' : State} {hash : Key} {size : {n : ℕ // 1 ≤ n ∧ n ≤ 4096}}
    {way : ℕ} (hs : Inv content s) (hlast : s.cache.LastWay hash way)
    (hmem : (lineOf hash, way) ∈ s.filled) : Hit content s (.read hash size) s' := by
  intro _
  obtain ⟨hwritten, hblock⟩ := hs.filled _ _ hmem
  rw [hlast.2.1] at hwritten hblock
  exact ⟨hwritten, by rw [Cache.cacheRead_of_lastWay hlast, hblock]⟩

/-- A hit on a way never filled is of the zero hash and copies zeros. -/
theorem Inv.cacheRead_of_unfilled {s : State} {hash : Key} {size way : ℕ} (hs : Inv content s)
    (hsize : size ≤ 4096) (hlast : s.cache.LastWay hash way)
    (hmem : (lineOf hash, way) ∉ s.filled) :
    hash = Key.zero ∧ (s.cache.cacheRead hash size).2 = List.replicate size 0 := by
  obtain ⟨hhash, hblock⟩ := hs.unfilled _ _ hmem
  refine ⟨hlast.2.1.symm.trans hhash, ?_⟩
  rw [Cache.cacheRead_of_lastWay hlast, hblock, take_fillBlock 0 hsize]

theorem Inv.hit_iff {s s' : State} (hs : Inv content s) (call : Call) :
    Hit content s call s' ↔ Filled content s call := by
  cases call with
  | write hash => exact Iff.rfl
  | read hash size =>
    constructor
    · intro hhit way hlast
      refine or_iff_not_imp_left.2 fun hmem => ?_
      have hread := (hs.cacheRead_of_unfilled size.2.2 hlast hmem).2
      rw [← hread]
      obtain ⟨hwritten, heq⟩ := hhit (by rw [hread]; simp; have := size.2.1; omega)
      exact ⟨hwritten, heq.symm⟩
    · intro hfilled hne
      obtain ⟨way, hlast⟩ := Cache.exists_lastWay hne
      by_cases hmem : (lineOf hash, way) ∈ s.filled
      · have hright : Hit content s (.read hash size) s' := hs.hit_of_filled hlast hmem
        exact hright hne
      · obtain ⟨hwritten, hzero⟩ := (hfilled way hlast).resolve_left hmem
        exact ⟨hwritten, (hs.cacheRead_of_unfilled size.2.2 hlast hmem).2.trans hzero.symm⟩

theorem Inv.step_of_filled {s : State} {call : Call} (hs : Inv content s)
    (h : Filled content s call) :
    ∃ s', CacheRun.step content s call = some s' ∧ Hit content s call s' ∧ Inv content s' := by
  have hdef : ∃ s', CacheRun.step content s call = some s' := by
    cases call <;> exact ⟨_, rfl⟩
  obtain ⟨s', hs'⟩ := hdef
  exact ⟨s', hs', (hs.hit_iff call).2 h, hs.step hs'⟩

/-- A way never filled cannot be taken for one with a hash other than zero. -/
theorem Inv.filled_of_ne_zero {s : State} {hash : Key} {size : {n : ℕ // 1 ≤ n ∧ n ≤ 4096}}
    (hs : Inv content s) (h : hash ≠ Key.zero) : Filled content s (.read hash size) := by
  refine fun way hlast => Or.inl ?_
  by_contra hmem
  exact h (hs.cacheRead_of_unfilled size.2.2 hlast hmem).1

/-! ## The results -/

/-- In a run every read is right if and only if the last way with its hash was filled or cannot
be told from a filled one. -/
theorem runs_hit_iff (content : Key → Block) (calls : List Call) :
    Runs.Always (step content) (fun _ => True) (Hit content) start calls ↔
      Runs.Each (step content) (Filled content) start calls :=
  Runs.always_iff_each_of_step (I := Inv content) (fun _ _ => trivial)
    (fun _ _ hs hC => hs.step_of_filled hC)
    (fun _ call _ hs _ hR _ => (hs.hit_iff call).1 hR) inv_start

/-- Reads of hashes other than zero are always right. -/
theorem runs_hit_of_ne_zero (content : Key → Block) {calls : List Call}
    (h : ∀ hash size, Call.read hash size ∈ calls → hash ≠ Key.zero) :
    Runs.Always (step content) (fun _ => True) (Hit content) start calls := by
  refine Runs.always_of_each (I := Inv content) (fun _ _ => trivial) ?_ inv_start
    (Runs.Each.of_forall_mem (C := fun call => ∀ hash size, call = .read hash size →
      hash ≠ Key.zero) fun call hmem hash size heq => h hash size (heq ▸ hmem))
  intro s call hs hne
  refine hs.step_of_filled ?_
  cases call with
  | write hash => trivial
  | read hash size => exact hs.filled_of_ne_zero (hne hash size rfl)

theorem empty_lastWay : Cache.empty.LastWay Key.zero 7 :=
  ⟨by decide, rfl, fun w hw hlt => absurd hlt (by simp only [cacheWays]; omega)⟩

/-- The first way looked at by `cache_write` is taken for one with the zero hash. -/
theorem empty_writeWays (line : ℕ) : (Cache.empty.writeWays line Key.zero).1 = none := rfl

/-- A read of the zero hash hits before any write, and after a write copies zeros whatever was
written. -/
theorem hit_counterexample :
    ¬Runs.Always (step fun _ => Store.fillBlock 1) (fun _ => True)
      (Hit fun _ => Store.fillBlock 1) start [.read Key.zero ⟨1, by decide⟩] ∧
    ¬Runs.Always (step fun _ => Store.fillBlock 1) (fun _ => True)
      (Hit fun _ => Store.fillBlock 1) start
      [.write Key.zero, .read Key.zero ⟨1, by decide⟩] := by
  have hs : Inv (fun _ => Store.fillBlock 1) start := inv_start
  constructor
  · rintro ⟨-, s', -, hhit, -⟩
    have hread : (start.cache.cacheRead Key.zero 1).2 = List.replicate 1 0 :=
      (hs.cacheRead_of_unfilled (by decide) empty_lastWay (by simp [start])).2
    have hwritten := (hhit (by rw [hread]; simp)).1
    simp [start] at hwritten
  · rintro ⟨-, s₁, h₁, -, -, s', -, hhit, -⟩
    have hs₁ := hs.step h₁
    obtain rfl := Option.some.inj h₁
    have hhash : (Cache.empty.cacheWrite Key.zero (Store.fillBlock 1).val).hashArr =
        Cache.empty.hashArr := (Cache.cacheWrite_of_none (empty_writeWays _)).1
    have hlast := empty_lastWay
    rw [Tags.LastWay, ← hhash] at hlast
    have hread : ((Cache.empty.cacheWrite Key.zero (Store.fillBlock 1).val).cacheRead
        Key.zero 1).2 = List.replicate 1 0 :=
      (hs₁.cacheRead_of_unfilled (by decide) hlast (by simp [start, empty_writeWays])).2
    have hones : List.replicate 1 0 = (Store.fillBlock 1).val.take 1 :=
      hread.symm.trans (hhit (by simp [start, hread])).2
    rw [take_fillBlock 1 (by decide)] at hones
    simp at hones

end CacheRun

end Agilefs
