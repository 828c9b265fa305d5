import Agilefs.WriteJob

/-!
# The iterations of a write

`Running` : what the loop of `fuse_write` has done when the blocks before `m` are written. `Left` :
what it leaves behind when a call fails at block `m`. `Running.step` : an iteration leads from
`Running` to `Running` or to `Left`, and `writeLoop_job` is the same for the whole loop.
-/

namespace Agilefs

open CInt Posix Function ByteFile

variable {B P : Type*}

namespace WriteJob

/-! ## The entry and the references of one block -/

/-- The call that fails. A `pwrite` moves fewer than the 16 bytes of the key. -/
inductive Fault where
  | pwrite (moved : ℕ)
  | put
  deriving DecidableEq

variable (J : WriteJob)

/-- The bytes of the key that get into the metafile. -/
def Fault.written (key : Key) : Fault → List UInt8
  | .pwrite moved => key.val.take moved
  | .put => key.val

/-- The key in the entry of block `m` after a call for it has failed. -/
def leftKey (m : ℕ) (fault : Fault) : Key := (J.oldKey m).load (fault.written (J.newKey m))

/-- The references to `k` after the delete for block `m`. -/
def refsAfter (m : ℕ) (k : Key) : ℕ :=
  if m < J.live then J.refsAt m k - (if J.oldKey m = k then 1 else 0)
  else J.refsAt J.fresh k - if J.stale = k then 1 else 0

variable {J} {S : Set (List UInt8)}

/-- The other blocks keep their references. -/
theorem Ready.refsAfter_pos (h : J.Ready S) {m b : ℕ} (hm : m < J.live) (hb : b < J.live)
    (hne : b ≠ m) : 0 < J.refsAfter m (J.keyAt m b) := by
  have hcount := h.countAt_le m (J.keyAt m b)
  have hpos := countAt_pos (m := m) hb
  rw [refsAfter, if_pos hm]
  split_ifs with hkey
  · rw [← J.keyAt_of_ge le_rfl] at hkey
    have := one_lt_countAt hb hm hne hkey
    omega
  · omega

theorem Ready.refsAt_succ_eq (h : J.Ready S) {m : ℕ} (hm : J.first ≤ m) (hlive : m < J.live)
    (k : Key) : J.refsAt (m + 1) k = J.refsAfter m k + if J.newKey m = k then 1 else 0 := by
  have hsucc := h.refsAt_succ hm hlive k
  have hle := h.countAt_le m k
  have hpos : J.oldKey m = k → 0 < J.countAt m k := by
    rintro rfl
    rw [← J.keyAt_of_ge le_rfl]
    exact countAt_pos hlive
  rw [refsAfter, if_pos hlive]
  split_ifs at hsucc ⊢ with h₁ h₂ h₂
  · have := hpos h₁
    omega
  · have := hpos h₁
    omega
  · omega
  · omega

/-- A block whose entry is there has its chunk. -/
theorem Ready.chunk_oldKey (h : J.Ready S) {b : ℕ} (hb : b < J.live) :
    J.chunk (J.oldKey b) = some (J.oldBlock b) := by
  have hcount := h.countAt_le J.first (J.keyAt J.first b)
  have hpos := countAt_pos (m := J.first) hb
  rw [h.refsAt_first, J.keyAt_first] at hcount
  rw [J.keyAt_first] at hpos
  obtain ⟨d, hd⟩ := Option.isSome_iff_exists.1 ((h.present _).2 (hpos.trans_le hcount))
  rw [oldBlock, if_pos hb, hd, Option.getD_some]

/-! ## The state between two iterations -/

/-- The blocks before `m` are written, with the contents `data`. -/
structure Running (J : WriteJob) (S : Set (List UInt8)) (v : StoreView B) (n : ℕ)
    (data : ℕ → List UInt8) (w : Client.WriteState (B × List StoreCall) P) (m : ℕ) : Prop where
  le : J.first ≤ m
  entries : ∀ b < J.live, entryBytes (w.os.inodes n) b = (J.keyAt m b).val
  addressed : Addressed J.doHash S (v.chunk w.store.1)
  pending : ∀ b, m ≤ b → b < J.live → v.chunk w.store.1 (J.oldKey b) = J.chunk (J.oldKey b)
  before : m ≤ J.fresh → (w.os.inodes n).length = J.f.length ∧
    entryBytes (w.os.inodes n) J.fresh = entryBytes J.f J.fresh ∧
    ∀ k, v.refs w.store.1 k = J.refsAt m k
  behind : J.fresh < m → (w.os.inodes n).length = m * 16 + 16 ∧
    ∀ k, v.refs w.store.1 k = J.refsAt J.fresh k - (if J.stale = k then 1 else 0) +
      if w.hashKey = k then 1 else 0
  hashKey : w.hashKey = if J.first < m then J.doHash (data (m - 1)) else J.junk
  last : J.first < m → v.chunk w.store.1 w.hashKey = some (data (m - 1))
  start : m = J.first → v.chunk w.store.1 = J.chunk
  putLog : puts w.store.2 =
    (List.range' J.first (m - J.first)).map fun b => (J.doHash (data b), data b)
  delCount : (dels w.store.2).length = m - J.first
  dataLive : ∀ b, J.first ≤ b → b < m → b < J.live → data b = J.newBlock b
  dataBehind : ∀ b, J.first ≤ b → b < m → J.live ≤ b → ∃ base, data b = J.overwritten base b ∧
    (J.f.length ≤ J.live * 16 + 16 →
      base = if J.first < b then data (b - 1) else (J.chunk J.junk).getD zeroBlock)

/-- What is left when the call `fault` fails at block `m`. -/
structure Left (J : WriteJob) (S : Set (List UInt8)) (v : StoreView B) (n : ℕ)
    (w : Client.WriteState (B × List StoreCall) P) (m : ℕ) (fault : Fault) : Prop where
  le : J.first ≤ m
  entries : ∀ b < J.live, entryBytes (w.os.inodes n) b =
    (if b = m then J.leftKey m fault else J.keyAt m b).val
  addressed : Addressed J.doHash S (v.chunk w.store.1)
  refs : ∀ k, v.refs w.store.1 k = J.refsAfter m k
  delCount : (dels w.store.2).length = m - J.first + 1
  putCount : (puts w.store.2).length = m - J.first + if fault = .put then 1 else 0

section Running

variable {v : StoreView B} {n : ℕ} {data : ℕ → List UInt8}
  {w : Client.WriteState (B × List StoreCall) P} {m : ℕ}

/-- Behind block `fresh` the metafile ends with the last entry written. -/
theorem Running.entry_behind (h : J.Running S v n data w m) (hgt : J.fresh < m) :
    entryBytes (w.os.inodes n) m = [] :=
  entryBytes_eq_nil (h.behind hgt).1.le

/-- The key read for block `m`. -/
theorem Running.key_eq (h : J.Running S v n data w m) {key : Key}
    (hkey : key = w.hashKey.load (entryBytes (w.os.inodes n) m)) :
    key = if m < J.live then J.oldKey m else if m = J.fresh then J.stale else w.hashKey := by
  have hfresh : J.live ≤ J.fresh := le_max_right _ _
  rw [hkey]
  split_ifs with hlive hm
  · have hentry := h.entries m hlive
    rw [J.keyAt_of_ge le_rfl] at hentry
    rw [Key.load_full _ (by rw [hentry, (J.oldKey m).property])]
    exact Subtype.ext hentry
  · rw [stale, hm, (h.before hm.le).2.1, h.hashKey]
    have hiff : J.first < m ↔ J.first < J.live := by
      unfold fresh at hm
      omega
    by_cases hf : J.first < J.live
    · have hprev : m - 1 = J.live - 1 := by
        unfold fresh at hm
        omega
      rw [if_pos (hiff.2 hf), if_pos hf, hprev, newKey,
        h.dataLive (J.live - 1) (by omega) (by omega) (by omega)]
    · rw [if_neg (mt hiff.1 hf), if_neg hf]
  · have hgt : J.fresh < m := by
      have := h.le
      unfold fresh at hm ⊢
      omega
    rw [h.entry_behind hgt, Key.load_nil]

/-- The references after the delete of the key read for block `m`. -/
theorem Running.refs_del (h : J.Running S v n data w m) {key : Key}
    (hkey : key = w.hashKey.load (entryBytes (w.os.inodes n) m)) (k : Key) :
    v.refs w.store.1 k - (if key = k then 1 else 0) = J.refsAfter m k := by
  have hle := h.le
  have hfresh : J.live ≤ J.fresh := le_max_right _ _
  rw [h.key_eq hkey, refsAfter]
  by_cases hlive : m < J.live
  · rw [if_pos hlive, if_pos hlive, (h.before (by omega)).2.2]
  rw [if_neg hlive, if_neg hlive]
  by_cases hm : m = J.fresh
  · rw [if_pos hm, (h.before hm.le).2.2, hm]
  · have hgt : J.fresh < m := by
      unfold fresh at hm ⊢
      omega
    rw [if_neg hm, (h.behind hgt).2, Nat.add_sub_cancel]

/-- The store after the delete. -/
theorem Running.store_del {st : BlockStore B} (hst : st.RefCounted v)
    (h : J.Running S v n data w m) {key : Key}
    (hkey : key = w.hashKey.load (entryBytes (w.os.inodes n) m)) {s : B} {ret : ℤ}
    (hdel : st.delChunk w.store.1 key = some (s, ret)) :
    (∀ k, v.refs s k = J.refsAfter m k) ∧
    (∀ k, v.chunk s k = if J.refsAfter m k = 0 then none else v.chunk w.store.1 k) ∧
    Addressed J.doHash S (v.chunk s) := by
  have hrefs : ∀ k, v.refs s k = J.refsAfter m k := fun k =>
    (hst.del_spec hdel k).1.trans (h.refs_del hkey k)
  have hchunk : ∀ k, v.chunk s k = if J.refsAfter m k = 0 then none else v.chunk w.store.1 k := by
    intro k
    rw [(hst.del_spec hdel k).2, hrefs]
  refine ⟨hrefs, hchunk, h.addressed.mono fun k d hd => ?_⟩
  rw [hchunk] at hd
  split_ifs at hd
  exact hd

/-- What is read as the old content of block `m`. -/
theorem Running.base (hJ : J.Ready S) (h : J.Running S v n data w m) {key : Key}
    (hkey : key = w.hashKey.load (entryBytes (w.os.inodes n) m)) :
    (m < J.live → (v.chunk w.store.1 key).getD zeroBlock = J.oldBlock m) ∧
    (J.live ≤ m → J.f.length ≤ J.live * 16 + 16 → (v.chunk w.store.1 key).getD zeroBlock =
      if J.first < m then data (m - 1) else (J.chunk J.junk).getD zeroBlock) := by
  have hle := h.le
  have hfresh : J.live ≤ J.fresh := le_max_right _ _
  constructor
  · intro hlive
    rw [h.key_eq hkey, if_pos hlive, h.pending m le_rfl hlive, hJ.chunk_oldKey hlive,
      Option.getD_some]
  · intro hlive htail
    have hsame : key = w.hashKey := by
      rw [hkey]
      by_cases hm : m = J.fresh
      · rw [hm, (h.before hm.le).2.1, entryBytes_eq_nil (by omega), Key.load_nil]
      · rw [h.entry_behind (by unfold fresh at hm ⊢; omega), Key.load_nil]
    rw [hsame]
    by_cases hfirst : J.first < m
    · rw [h.last hfirst, if_pos hfirst, Option.getD_some]
    · rw [if_neg hfirst, h.start (by omega), h.hashKey, if_neg hfirst]

/-! ## One iteration -/

/-- The entries after `d`, a front of the key `key`, is written over that of block `m`. -/
theorem Running.entries_write (h : J.Running S v n data w m) {d : List UInt8} (hd : d.length ≤ 16)
    {b : ℕ} (hb : b < J.live) :
    entryBytes ((w.os.inodes n).pwrite d (m * 16 + 16)) b =
      if b = m then overlay (J.oldKey m).val d else (J.keyAt m b).val := by
  have hentry := h.entries b hb
  have hhas : HasEntry (w.os.inodes n) b := by rw [HasEntry, hentry, (J.keyAt m b).property]
  rw [entryBytes_pwrite hhas m hd, hentry]
  split_ifs with hbm
  · rw [hbm, J.keyAt_of_ge le_rfl]
  · rfl

/-- The entry of block `m` is written. -/
theorem Running.entries_succ (h : J.Running S v n data w m) {key : Key}
    (hkey : m < J.live → key = J.newKey m) {b : ℕ} (hb : b < J.live) :
    entryBytes ((w.os.inodes n).pwrite key.val (m * 16 + 16)) b = (J.keyAt (m + 1) b).val := by
  rw [h.entries_write key.property.le hb, J.keyAt_succ h.le]
  split_ifs with hbm
  · rw [hkey (hbm ▸ hb), overlay_of_length_le]
    rw [(J.oldKey m).property, (J.newKey m).property]
  · rfl

/-- The length of the metafile with the entry of block `m`. -/
theorem Running.length_succ (h : J.Running S v n data w m) (key : Key) :
    ((w.os.inodes n).pwrite key.val (m * 16 + 16)).length =
      if m < J.live then J.f.length else (m + 1) * 16 + 16 := by
  have hle := h.le
  have hlive : J.f.length < J.live * 16 + 32 ∧ (0 < J.live → J.live * 16 + 16 ≤ J.f.length) := by
    unfold live
    omega
  rw [length_writeEntry]
  by_cases hm : m ≤ J.fresh
  · rw [(h.before hm).1]
    split_ifs <;> omega
  · rw [(h.behind (by omega)).1, if_neg (by unfold fresh at hm; omega)]
    omega

/-- The store after the put of the block `d`, which succeeds. -/
theorem Running.store_put {st : BlockStore B} (hst : st.RefCounted v) (hJ : J.Ready S)
    (h : J.Running S v n data w m) {key : Key}
    (hkey : key = w.hashKey.load (entryBytes (w.os.inodes n) m)) {s s' : B} {ret : ℤ}
    (hdel : st.delChunk w.store.1 key = some (s, ret)) {d : List UInt8} (hd : d.length = 4096)
    (hS : d ∈ S) (hput : st.putNewChunk s (J.doHash d) d = some (s', 0)) :
    (∀ k, v.refs s' k = J.refsAfter m k + if J.doHash d = k then 1 else 0) ∧
    (∀ b, m < b → b < J.live → v.chunk s' (J.oldKey b) = J.chunk (J.oldKey b)) ∧
    v.chunk s' (J.doHash d) = some d ∧ Addressed J.doHash S (v.chunk s') := by
  obtain ⟨hrefs, hchunk, haddr⟩ := h.store_del hst hkey hdel
  obtain ⟨hrefs', hchunk'⟩ := (hst.put_spec hd hput).1 rfl
  obtain ⟨hself, haddr'⟩ := haddr.put hJ.inj hS hchunk'
  refine ⟨fun k => ?_, fun b hmb hb => ?_, by rw [hself, update_self], haddr'⟩
  · rw [hrefs', update_apply, hrefs, hrefs]
    by_cases hk : k = J.doHash d
    · rw [if_pos hk, if_pos hk.symm, hk]
    · rw [if_neg hk, if_neg (Ne.symm hk), add_zero]
  · -- the other blocks still refer to their chunks
    have hpos := hJ.refsAfter_pos (by omega : m < J.live) hb (by omega)
    rw [J.keyAt_of_ge hmb.le] at hpos
    have hkept : v.chunk s (J.oldKey b) = J.chunk (J.oldKey b) := by
      rw [hchunk, if_neg (by omega), h.pending b hmb.le hb]
    rw [hchunk', update_apply]
    split_ifs with hk
    · rw [← hk, hkept, hJ.chunk_oldKey hb, Option.getD_some]
    · exact hkept

/-- All calls for block `m` succeed. -/
theorem Running.next {st : BlockStore B} (hst : st.RefCounted v) (hJ : J.Ready S)
    (h : J.Running S v n data w m) {key : Key}
    (hkey : key = w.hashKey.load (entryBytes (w.os.inodes n) m)) {s s' : B × List StoreCall}
    {ret : ℤ} (hdel : st.recorded.delChunk w.store key = some (s, ret)) {d : List UInt8}
    (hd : d = J.overwritten ((v.chunk w.store.1 key).getD zeroBlock) m) (hS : d ∈ S)
    (hput : st.recorded.putNewChunk s (J.doHash d) d = some (s', 0)) (i : ℤ) :
    J.Running S v n (update data m d) ⟨w.os.setContent n
      ((w.os.inodes n).pwrite (J.doHash d).val (m * 16 + 16)), s', J.doHash d, i, true⟩
      (m + 1) := by
  have hle := h.le
  have hfresh : J.live ≤ J.fresh := le_max_right _ _
  have hlen : d.length = 4096 := by rw [hd, J.length_overwritten]
  obtain ⟨hdel', hdels⟩ := recorded_delChunk hdel
  obtain ⟨hput', hputs⟩ := recorded_putNewChunk hput
  obtain ⟨hrefs, hpending, hself, haddr⟩ := h.store_put hst hJ hkey hdel' hlen hS hput'
  obtain ⟨hbase, hbase'⟩ := h.base hJ hkey
  have hnew : m < J.live → d = J.newBlock m := fun hlive => by rw [hd, hbase hlive, newBlock]
  have hbefore : ∀ b, b < m → update data m d b = data b := fun b hb => update_of_ne hb.ne _ _
  have hself' : update data m d m = d := update_self _ _ _
  refine ⟨by omega, fun b hb => ?_, haddr, fun b hmb => hpending b (by omega), fun hm => ?_,
    fun hm => ?_, ?_, fun _ => ?_, fun hm => by omega, ?_, ?_, fun b hb hbm hlive => ?_,
    fun b hb hbm hlive => ?_⟩
  · simp only [Os.setContent_inodes, update_self]
    exact h.entries_succ (fun hlive => by rw [hnew hlive, newKey]) hb
  · have hlive : m < J.live := by
      unfold fresh at hm
      omega
    simp only [Os.setContent_inodes, update_self]
    refine ⟨by rw [h.length_succ, if_pos hlive], ?_, fun k => ?_⟩
    · rw [← (h.before (by omega)).2.1]
      exact pread_pwrite_of_ge _ _ (by rw [(J.doHash d).property]; omega)
    · rw [hrefs, hJ.refsAt_succ_eq hle hlive, newKey, hnew hlive]
  · have hlive : ¬m < J.live := by omega
    simp only [Os.setContent_inodes, update_self]
    refine ⟨by rw [h.length_succ, if_neg hlive], fun k => ?_⟩
    rw [hrefs, refsAfter, if_neg hlive]
  · rw [if_pos (by omega), Nat.add_sub_cancel, hself']
  · rw [Nat.add_sub_cancel, hself']
    exact hself
  · rw [hputs, hdels, puts_append, puts_append, h.putLog, Nat.succ_sub hle, List.range'_concat,
      List.map_append]
    have hmap : (List.range' J.first (m - J.first)).map
        (fun b => (J.doHash (update data m d b), update data m d b)) =
        (List.range' J.first (m - J.first)).map fun b => (J.doHash (data b), data b) := by
      refine List.map_congr_left fun b hb => ?_
      rw [List.mem_range'_1] at hb
      rw [hbefore b (by omega)]
    have hm : J.first + 1 * (m - J.first) = m := by omega
    rw [hmap, hm]
    simp
  · rw [hputs, hdels, dels_append, dels_append, List.length_append, List.length_append, h.delCount]
    simp only [dels, List.filterMap_cons, StoreCall.delKey, List.filterMap_nil, List.length_cons,
      List.length_nil]
    omega
  · rcases Nat.lt_succ_iff_lt_or_eq.1 hbm with hlt | rfl
    · rw [hbefore b hlt, h.dataLive b hb hlt hlive]
    · rw [hself', hnew hlive]
  · rcases Nat.lt_succ_iff_lt_or_eq.1 hbm with hlt | rfl
    · rw [hbefore b hlt, hbefore (b - 1) (by omega)]
      exact h.dataBehind b hb hlt hlive
    · refine ⟨_, by rw [hself', hd], fun htail => ?_⟩
      rw [hbase' hlive htail]
      split_ifs with hfirst
      · rw [hbefore (b - 1) (by omega)]
      · rfl

/-- A call for block `m` fails. -/
theorem Running.left {st : BlockStore B} (hst : st.RefCounted v) (hJ : J.Ready S)
    (h : J.Running S v n data w m) {key : Key}
    (hkey : key = w.hashKey.load (entryBytes (w.os.inodes n) m)) {s s' : B × List StoreCall}
    {ret : ℤ} (hdel : st.recorded.delChunk w.store key = some (s, ret)) {d : List UInt8}
    (hd : d = J.overwritten ((v.chunk w.store.1 key).getD zeroBlock) m) (fault : Fault)
    (hrefs' : v.refs s'.1 = v.refs s.1) (hchunk' : v.chunk s'.1 = v.chunk s.1)
    (hdels' : dels s'.2 = dels s.2)
    (hputs' : (puts s'.2).length = (puts s.2).length + if fault = .put then 1 else 0)
    (hashKey : Key) (i : ℤ) :
    J.Left S v n ⟨w.os.setContent n
      ((w.os.inodes n).pwrite (fault.written (J.doHash d)) (m * 16 + 16)), s', hashKey, i,
      false⟩ m fault := by
  obtain ⟨hdel', hlog⟩ := recorded_delChunk hdel
  obtain ⟨hrefs, -, haddr⟩ := h.store_del hst hkey hdel'
  have hlen : (fault.written (J.doHash d)).length ≤ 16 := by
    cases fault <;> simp [Fault.written, (J.doHash d).property]
  refine ⟨h.le, fun b hb => ?_, by rwa [hchunk'], by rwa [hrefs'], ?_, ?_⟩
  · simp only [Os.setContent_inodes, update_self]
    rw [h.entries_write hlen hb]
    split_ifs with hbm
    · have hnew : J.doHash d = J.newKey m := by
        rw [hd, (h.base hJ hkey).1 (hbm ▸ hb), newKey, newBlock]
      rw [hnew] at hlen ⊢
      rw [leftKey, Key.load_val _ hlen]
    · rfl
  · rw [hdels', hlog, dels_append, List.length_append, h.delCount]
    rfl
  · rw [hputs', hlog, puts_append, List.length_append, h.putLog, List.length_map,
      List.length_range']
    rfl

/-- One iteration. -/
theorem Running.step {st : BlockStore B} (hst : st.RefCounted v) (hJ : J.Ready S) {io : Io}
    (hio : ∀ off, io.pread off = .full) {fd : ℤ} (hino : w.os.ino fd = some n)
    (h : J.Running S v n data w m) (h₀ : 0 ≤ J.offset) (hmax : J.offset + J.buf.length < 2 ^ 63)
    (hle : J.offset ≤ w.i) (hlt : w.i < J.offset + J.buf.length) (hat : AtBlock J.offset w.i)
    (hm : blockIndex w.i = m) {w' : Client.WriteState (B × List StoreCall) P}
    (hbody : Client.writeBody J.doHash st.recorded io fd J.buf J.offset w = some w')
    (hS : ∀ x ∈ puts w'.store.2, x.2 ∈ S) :
    (∃ d, J.Running S v n (update data m d) w' (m + 1) ∧ w'.ok = true ∧
      w'.i = w.i + Client.chunkLen (J.offset + J.buf.length) w.i) ∨
    (∃ fault, J.Left S v n w' m fault ∧ w'.ok = false ∧ w'.i = w.i ∧
      ∀ moved, fault = .pwrite moved → moved < 16 ∧
        moved = (io.pwrite (entryOffset w.i) 16).getD 0) := by
  obtain ⟨key, d, s, ret, hkey, hd, hdel, hcase⟩ :=
    Client.writeBody_cases hio hino h₀ hmax hle hlt hbody
  have hd' : d = J.overwritten ((v.chunk w.store.1 key).getD zeroBlock) m := by
    rw [hd, ← hm]
    exact blockData_eq_overwritten J (hst.read w.store.1 key)
      (hst.length w.store.1 key) h₀ hle hlt hat
  rw [hm] at hkey
  simp only [hm] at hcase
  rcases hcase with ⟨moved, hmoved, hlt16, rfl⟩ | ⟨s', ret', hput, rfl⟩
  · have hleft := h.left hst hJ hkey hdel hd' (.pwrite moved) rfl rfl rfl (by simp) (J.doHash d) w.i
    refine Or.inr ⟨.pwrite moved, hleft, rfl, rfl, fun moved' heq => ?_⟩
    obtain rfl := Fault.pwrite.inj heq
    exact ⟨hlt16, hmoved⟩
  obtain ⟨hput', hlog⟩ := recorded_putNewChunk hput
  by_cases hret : ret' = 0
  · subst hret
    refine Or.inl ⟨d, ?_, by simp, by simp⟩
    have hdS : d ∈ S := hS (J.doHash d, d) (by simp [hlog])
    simpa using h.next hst hJ hkey hdel hd' hdS hput
      (w.i + Client.chunkLen (J.offset + J.buf.length) w.i)
  · have hlen : d.length = 4096 := by rw [hd', J.length_overwritten]
    obtain ⟨hrefs', hchunk'⟩ := (hst.put_spec hlen hput').2 hret
    refine Or.inr ⟨.put, ?_, by simp [hret], by simp [hret], fun moved heq => by cases heq⟩
    have hleft := h.left hst hJ hkey hdel hd' .put hrefs' hchunk'
      (by simp [hlog, dels, StoreCall.delKey]) (by simp [hlog]) (J.doHash d) w.i
    simp only [hret, if_false, decide_false]
    exact hleft

end Running

/-! ## The loop -/

/-- The blocks before this one are done when a write from `offset` has come to byte `i`. -/
def doneTo (offset i : ℤ) : ℕ := if i ≤ offset then blockIndex offset else blocks i

theorem touched_eq (offset i : ℤ) :
    touched offset i = List.range' (blockIndex offset) (doneTo offset i - blockIndex offset) := by
  unfold touched doneTo
  split_ifs <;> simp

theorem doneTo_of_atBlock {offset i : ℤ} (h : AtBlock offset i) :
    doneTo offset i = blockIndex i := by
  unfold doneTo
  rcases h with rfl | ⟨hgt, hal⟩
  · rw [if_pos le_rfl]
  · rw [if_neg (by omega)]
    unfold blocks blockIndex
    omega

theorem doneTo_next {offset stop i : ℤ} (h₀ : 0 ≤ offset) (hle : offset ≤ i) (hlt : i < stop) :
    doneTo offset (i + Client.chunkLen stop i) = blockIndex i + 1 := by
  have hpos := Client.chunkLen_pos hlt
  rw [doneTo, if_neg (by omega)]
  unfold blocks Client.chunkLen blockIndex
  omega

/-- An iteration only adds to the puts. -/
theorem writeBody_puts {doHash : List UInt8 → Key} {st : BlockStore B} {io : Io} {fd : ℤ}
    {buf : List UInt8} {offset : ℤ} {w w' : Client.WriteState (B × List StoreCall) P}
    (hbody : Client.writeBody doHash st.recorded io fd buf offset w = some w') :
    ∀ x ∈ puts w.store.2, x ∈ puts w'.store.2 := by
  simp only [Client.writeBody] at hbody
  obtain ⟨⟨s, ret⟩, hdel, hrest⟩ := Option.bind_eq_some_iff.1 hbody
  have hlog : puts s.2 = puts w.store.2 := by simp [(recorded_delChunk hdel).2]
  intro x hx
  rw [← hlog] at hx
  split_ifs at hrest
  · rw [← Option.some.inj hrest]
    exact hx
  · obtain ⟨⟨s', ret'⟩, hput, hw'⟩ := Option.map_eq_some_iff.1 hrest
    have hstore : w'.store = s' := by
      rw [← hw']
      split_ifs <;> rfl
    rw [hstore, (recorded_putNewChunk hput).2, puts_append]
    exact List.mem_append_left _ hx

/-- An iteration goes to the next block, or stays where a call failed. -/
theorem writeBody_pos {doHash : List UInt8 → Key} {st : BlockStore B} {io : Io}
    (hio : ∀ off, io.pread off = .full) {fd : ℤ} {n : ℕ} {buf : List UInt8} {offset : ℤ}
    {w w' : Client.WriteState B P} (hino : w.os.ino fd = some n) (h₀ : 0 ≤ offset)
    (hmax : offset + buf.length < 2 ^ 63) (hle : offset ≤ w.i) (hlt : w.i < offset + buf.length)
    (hbody : Client.writeBody doHash st io fd buf offset w = some w') :
    w'.os.ino fd = some n ∧
      (w'.i = w.i ∨ w'.i = w.i + Client.chunkLen (offset + buf.length) w.i) := by
  obtain ⟨_, _, _, _, -, -, -, hcase⟩ := Client.writeBody_cases hio hino h₀ hmax hle hlt hbody
  rcases hcase with ⟨_, -, -, rfl⟩ | ⟨_, ret', -, rfl⟩
  · exact ⟨hino, Or.inl rfl⟩
  · refine ⟨hino, ?_⟩
    simp only
    split_ifs
    · exact Or.inr rfl
    · exact Or.inl rfl

/-- Before the first iteration. -/
theorem running_first {J : WriteJob} {S : Set (List UInt8)} {v : StoreView B} (hJ : J.Ready S)
    {os : Os P} {n : ℕ} (hf : os.inodes n = J.f) {s : B} (hchunk : v.chunk s = J.chunk)
    (hrefs : v.refs s = J.refs) :
    J.Running S v n J.oldBlock ⟨os, (s, []), J.junk, J.offset, true⟩ J.first := by
  have hfirst : J.first ≤ J.fresh := le_max_left _ _
  refine ⟨le_rfl, fun b hb => ?_, ?_, fun b _ _ => by rw [hchunk],
    fun _ => ⟨by rw [hf], by rw [hf], fun k => ?_⟩, fun hlt => ?_, ?_, fun hlt => ?_,
    fun _ => hchunk, ?_, ?_, fun b h₁ h₂ => ?_, fun b h₁ h₂ => ?_⟩
  · rw [hf, ← ((J.hasEntry_iff_live).2 hb).entryKey_val]
    exact congrArg Subtype.val (J.keyAt_first b).symm
  · rw [hchunk]
    exact hJ.addressed
  · rw [hrefs]
    exact (hJ.refsAt_first k).symm
  · exact absurd hfirst (not_le.2 hlt)
  · exact (if_neg (lt_irrefl J.first)).symm
  · exact absurd hlt (lt_irrefl J.first)
  · change puts [] = (List.range' J.first (J.first - J.first)).map _
    rw [Nat.sub_self]
    rfl
  · exact (Nat.sub_self J.first).symm
  · exact absurd h₂ (not_lt.2 h₁)
  · exact absurd h₂ (not_lt.2 h₁)

/-- The loop of `fuse_write` on its way, if all blocks put are in `S` : the blocks up to `w.i` are
written, and a call may have failed at the next one. -/
structure Underway (J : WriteJob) (S : Set (List UInt8)) (v : StoreView B) (io : Io) (fd : ℤ)
    (n : ℕ) (w : Client.WriteState (B × List StoreCall) P) : Prop where
  ino : w.os.ino fd = some n
  le : J.offset ≤ w.i
  le_stop : w.i ≤ J.offset + J.buf.length
  atBlock : w.i < J.offset + J.buf.length → AtBlock J.offset w.i
  job : (∀ x ∈ puts w.store.2, x.2 ∈ S) →
    (w.ok = true → ∃ data, J.Running S v n data w (doneTo J.offset w.i)) ∧
    (w.ok = false → w.i < J.offset + J.buf.length ∧ ∃ fault,
      J.Left S v n w (blockIndex w.i) fault ∧
      ∀ moved, fault = .pwrite moved → moved < 16 ∧
        moved = (io.pwrite (entryOffset w.i) 16).getD 0)

/-- An iteration goes to the next block, or fails at the one it is at. -/
theorem Underway.step {st : BlockStore B} {v : StoreView B} (hst : st.RefCounted v)
    {J : WriteJob} {S : Set (List UInt8)} (hJ : J.Ready S) {io : Io}
    (hio : ∀ off, io.pread off = .full) {fd : ℤ} {n : ℕ} (h₀ : 0 ≤ J.offset)
    (hmax : J.offset + J.buf.length < 2 ^ 63)
    {w w' : Client.WriteState (B × List StoreCall) P} (h : J.Underway S v io fd n w)
    (hok : w.ok = true) (hlt : w.i < J.offset + J.buf.length)
    (hbody : Client.writeBody J.doHash st.recorded io fd J.buf J.offset w = some w') :
    J.Underway S v io fd n w' := by
  have hle := h.le
  have hat := h.atBlock hlt
  have hpos := writeBody_pos hio h.ino h₀ hmax hle hlt hbody
  have hnext := Client.add_chunkLen_le hlt.le
  refine ⟨hpos.1, by omega, by omega, fun hlt' => ?_, fun hS => ?_⟩
  · rcases hpos.2 with hi | hi
    · rw [hi]
      exact hat
    · rw [hi]
      exact atBlock_next hle hlt (hi ▸ hlt')
  obtain ⟨data, hrunning⟩ := (h.job fun x hx => hS x (writeBody_puts hbody x hx)).1 hok
  rw [doneTo_of_atBlock hat] at hrunning
  rcases hrunning.step hst hJ hio h.ino h₀ hmax hle hlt hat rfl hbody hS with
    ⟨d, h', hok', hi'⟩ | ⟨fault, hleft, hok', hi', hmoved⟩
  · refine ⟨fun _ => ⟨update data (blockIndex w.i) d, ?_⟩, fun hfail => by simp [hok'] at hfail⟩
    rw [hi', doneTo_next h₀ hle hlt]
    exact h'
  · refine ⟨fun hfine => by simp [hok'] at hfine, fun _ => ?_⟩
    rw [hi']
    exact ⟨hlt, fault, hleft, hmoved⟩

/-- The loop of `fuse_write` : all blocks are written, or a call fails at one of them. -/
theorem writeLoop_job {st : BlockStore B} {v : StoreView B} (hst : st.RefCounted v)
    {J : WriteJob} {S : Set (List UInt8)} (hJ : J.Ready S) {io : Io}
    (hio : ∀ off, io.pread off = .full) {os : Os P} {fd : ℤ} {n : ℕ} (hino : os.ino fd = some n)
    (h₀ : 0 ≤ J.offset) (hmax : J.offset + J.buf.length < 2 ^ 63) (hf : os.inodes n = J.f) {s : B}
    (hchunk : v.chunk s = J.chunk) (hrefs : v.refs s = J.refs)
    {w : Client.WriteState (B × List StoreCall) P}
    (hrun : Client.writeLoop J.doHash st.recorded io fd J.buf J.offset
      ⟨os, (s, []), J.junk, J.offset, true⟩ = some w) (hS : ∀ x ∈ puts w.store.2, x.2 ∈ S) :
    (w.ok = true → ∃ data, J.Running S v n data w (doneTo J.offset J.stop)) ∧
    (w.ok = false → ∃ m ∈ touched J.offset J.stop, ∃ fault, J.Left S v n w m fault ∧
      ∀ moved, fault = .pwrite moved → moved < 16 ∧
        moved = (io.pwrite (m * 16 + 16 : ℕ) 16).getD 0) := by
  have hstart : J.Underway S v io fd n
      (⟨os, (s, []), J.junk, J.offset, true⟩ : Client.WriteState (B × List StoreCall) P) := by
    refine ⟨hino, le_rfl, by simp, fun _ => Or.inl rfl,
      fun _ => ⟨fun _ => ⟨J.oldBlock, ?_⟩, by simp⟩⟩
    rw [doneTo_of_atBlock (Or.inl rfl)]
    exact running_first hJ hf hchunk hrefs
  have hstep : ∀ w w' : Client.WriteState (B × List StoreCall) P, J.Underway S v io fd n w →
      (w.ok && decide (uint64 w.i < uint64 (J.offset + J.buf.length))) = true →
      Client.writeBody J.doHash st.recorded io fd J.buf J.offset w = some w' →
      J.Underway S v io fd n w' := by
    intro w w' h hcond hbody
    rw [Bool.and_eq_true, decide_eq_true_eq,
      Client.writeCond_iff (h₀.trans h.le) hmax h.le_stop] at hcond
    exact h.step hst hJ hio h₀ hmax hcond.1 hcond.2 hbody
  obtain ⟨h, hend⟩ := Loop.run_invariant hstep hstart hrun
  refine ⟨fun hok => ?_, fun hok => ?_⟩
  · rw [hok, Bool.true_and, decide_eq_false_iff_not,
      Client.writeCond_iff (h₀.trans h.le) hmax h.le_stop] at hend
    rw [show J.stop = w.i from le_antisymm (not_lt.1 hend) h.le_stop]
    exact (h.job hS).1 hok
  · obtain ⟨hlt, fault, hleft, hmoved⟩ := (h.job hS).2 hok
    have hle := h.le
    have hmem : blockIndex w.i ∈ touched J.offset J.stop := by
      rw [mem_touched h₀]
      unfold stop blockIndex
      omega
    rw [entryOffset_eq (h₀.trans hle)] at hmoved
    exact ⟨_, hmem, fault, hleft, hmoved⟩

end WriteJob

namespace Client

/-- What a write of `buf` at `offset` to the metafile `n` starts from. -/
def writeJob (c : Client (B × List StoreCall) P) (v : StoreView B) (doHash : List UInt8 → Key)
    (n : ℕ) (buf : List UInt8) (offset : ℤ) (junk : Key) : WriteJob :=
  ⟨doHash, c.os.inodes n, v.chunk c.store.1, v.refs c.store.1, buf, offset, junk⟩

theorem writeJob_ready {st : BlockStore B} {v : StoreView B} (hst : st.RefCounted v)
    {doHash : List UInt8 → Key} {S : Set (List UInt8)} (hinj : S.InjOn doHash)
    {c : Client (B × List StoreCall) P} (haddr : Addressed doHash S (v.chunk c.store.1)) {n : ℕ}
    {buf : List UInt8} {offset : ℤ} {junk : Key}
    (hheld : ∀ k, entryCount (c.os.inodes n) (c.writeJob v doHash n buf offset junk).live k ≤
      v.refs c.store.1 k) : (c.writeJob v doHash n buf offset junk).Ready S :=
  ⟨hst.present c.store.1, hst.length c.store.1, hheld, haddr, hinj⟩

end Client

end Agilefs
