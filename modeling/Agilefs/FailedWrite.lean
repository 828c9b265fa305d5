import Agilefs.WriteRun

/-!
# Failed writes

`fuse_write` deletes the old key of a block, writes the new key over its entry, and puts the new
block last. If the `pwrite` or the put fails, the entry names what is left of a key whose block was
not put.

`fuseWrite_failed_iff` : after an error every block of the file still has its old content or its new
one if and only if the reference that was deleted for the block at which the call failed was not the
last one that is needed (`Survives`). The error is `-errno`, and a caller sees it only if `errno`
was set (`fuseWrite_returned_neg_iff`).
-/

namespace Agilefs

open CInt Posix Function ByteFile

variable {B P : Type*}

namespace WriteJob

variable (J : WriteJob)

/-- Each block that had an entry has one, and it names a chunk with the old content or the new. -/
def BlocksKept (f : ByteFile) (chunk : Key → Option (List UInt8)) : Prop :=
  ∀ b, HasEntry J.f b → HasEntry f b ∧
    ∃ d, chunk (entryKey f b) = some d ∧ (d = J.oldBlock b ∨ d = J.newBlock b)

/-- No block is lost if `fault` happens at block `m`. A block with an entry must keep its old key
and have had another reference, or have its new key, to which there was a reference already. At a
block without an entry, the key deleted must not be that of a block with no other reference. -/
def Survives (m : ℕ) (fault : Fault) : Prop :=
  if m < J.live then
    J.leftKey m fault = J.oldKey m ∧ 1 < J.refsAt m (J.oldKey m) ∨
      J.leftKey m fault = J.newKey m ∧ J.newKey m ≠ J.oldKey m ∧ 0 < J.refsAt m (J.newKey m)
  else ∀ b < J.live, J.keyAt J.fresh b = J.stale → 1 < J.refsAt J.fresh J.stale

/-- The calls and the transfers tell at which block and how the write has failed. -/
structure FailsAt (io : Io) (calls : List StoreCall) (m : ℕ) (fault : Fault) : Prop where
  delCount : (dels calls).length = m - J.first + 1
  putCount : (puts calls).length = m - J.first + if fault = .put then 1 else 0
  moved : ∀ moved, fault = .pwrite moved →
    moved < 16 ∧ moved = (io.pwrite (m * 16 + 16 : ℕ) 16).getD 0

variable {J} {S : Set (List UInt8)} {v : StoreView B} {n : ℕ}
  {w : Client.WriteState (B × List StoreCall) P} {m : ℕ} {fault : Fault}

theorem Ready.addressed_oldBlock (hJ : J.Ready S) {b : ℕ} (hb : b < J.live) :
    J.oldBlock b ∈ S ∧ J.doHash (J.oldBlock b) = J.oldKey b :=
  hJ.addressed _ _ (hJ.chunk_oldKey hb)

/-- The blocks are kept whose keys are old or new ones with references left. -/
theorem Left.blocksKept_iff {st : BlockStore B} (hst : st.RefCounted v) (hJ : J.Ready S)
    (hnew : ∀ b < J.live, J.newBlock b ∈ S) (h : J.Left S v n w m fault) {key : ℕ → Key}
    (hkey : ∀ b, key b = if b = m then J.leftKey m fault else J.keyAt m b) :
    J.BlocksKept (w.os.inodes n) (v.chunk w.store.1) ↔
      ∀ b < J.live, 0 < J.refsAfter m (key b) ∧ (key b = J.oldKey b ∨ key b = J.newKey b) := by
  have hentry : ∀ b < J.live, HasEntry (w.os.inodes n) b ∧ entryKey (w.os.inodes n) b = key b := by
    intro b hb
    have hbytes := h.entries b hb
    rw [← hkey] at hbytes
    have hhas : HasEntry (w.os.inodes n) b := by rw [HasEntry, hbytes, (key b).property]
    exact ⟨hhas, Subtype.ext (hhas.entryKey_val.trans hbytes)⟩
  constructor
  · intro hkept b hb
    obtain ⟨-, d, hd, hcontent⟩ := hkept b (J.hasEntry_iff_live.2 hb)
    rw [(hentry b hb).2] at hd
    obtain ⟨-, hhash⟩ := h.addressed _ _ hd
    refine ⟨?_, ?_⟩
    · rw [← h.refs, ← hst.present, hd, Option.isSome_some]
    · rcases hcontent with heq | heq <;> rw [heq] at hhash
      · exact Or.inl (hhash.symm.trans (hJ.addressed_oldBlock hb).2)
      · exact Or.inr hhash.symm
  · intro hall b hb
    rw [J.hasEntry_iff_live] at hb
    obtain ⟨hpos, hcases⟩ := hall b hb
    rw [← h.refs, ← hst.present] at hpos
    obtain ⟨d, hd⟩ := Option.isSome_iff_exists.1 hpos
    refine ⟨(hentry b hb).1, d, by rw [(hentry b hb).2, hd], ?_⟩
    -- the chunk is the one block with this hash
    rcases hcases with hold | hnewKey
    · obtain ⟨hmem, hhash⟩ := hJ.addressed_oldBlock hb
      rw [hold, ← hhash] at hd
      exact Or.inl (h.addressed.eq_of_chunk hJ.inj hmem hd)
    · rw [hnewKey, newKey] at hd
      exact Or.inr (h.addressed.eq_of_chunk hJ.inj (hnew b hb) hd)

theorem keyAt_cases (m b : ℕ) : J.keyAt m b = J.oldKey b ∨ J.keyAt m b = J.newKey b := by
  unfold keyAt
  split_ifs
  · exact Or.inr rfl
  · exact Or.inl rfl

theorem Left.survives_iff {st : BlockStore B} (hst : st.RefCounted v) (hJ : J.Ready S)
    (hnew : ∀ b < J.live, J.newBlock b ∈ S) (h : J.Left S v n w m fault) :
    J.BlocksKept (w.os.inodes n) (v.chunk w.store.1) ↔ J.Survives m fault := by
  rw [h.blocksKept_iff hst hJ hnew fun b => rfl, Survives]
  by_cases hm : m < J.live
  · rw [if_pos hm]
    -- only block `m` can be lost
    have hother : ∀ b < J.live, b ≠ m → 0 < J.refsAfter m (J.keyAt m b) ∧
        (J.keyAt m b = J.oldKey b ∨ J.keyAt m b = J.newKey b) :=
      fun b hb hne => ⟨hJ.refsAfter_pos hm hb hne, keyAt_cases m b⟩
    have hself : (∀ b < J.live,
        0 < J.refsAfter m (if b = m then J.leftKey m fault else J.keyAt m b) ∧
        ((if b = m then J.leftKey m fault else J.keyAt m b) = J.oldKey b ∨
          (if b = m then J.leftKey m fault else J.keyAt m b) = J.newKey b)) ↔
        0 < J.refsAfter m (J.leftKey m fault) ∧
          (J.leftKey m fault = J.oldKey m ∨ J.leftKey m fault = J.newKey m) := by
      constructor
      · intro hall
        simpa using hall m hm
      · intro hkept b hb
        by_cases hbm : b = m
        · simpa [hbm] using hkept
        · simpa [hbm] using hother b hb hbm
    rw [hself, refsAfter, if_pos hm]
    by_cases hold : J.oldKey m = J.leftKey m fault
    · rw [if_pos hold, ← hold]
      have hne : ¬(J.oldKey m = J.newKey m ∧ J.newKey m ≠ J.oldKey m ∧
          0 < J.refsAt m (J.newKey m)) := fun h => h.2.1 h.1.symm
      rw [or_iff_left hne]
      simp only [true_or, and_true, true_and]
      omega
    · rw [if_neg hold, Nat.sub_zero]
      have hold' : J.leftKey m fault ≠ J.oldKey m := fun h => hold h.symm
      simp only [hold', false_and, false_or]
      constructor
      · rintro ⟨hpos, heq⟩
        rw [heq] at hpos hold'
        exact ⟨heq, hold', hpos⟩
      · rintro ⟨heq, -, hpos⟩
        exact ⟨heq ▸ hpos, heq⟩
  · rw [if_neg hm]
    have hfresh : J.fresh ≤ m := max_le h.le (not_lt.1 hm)
    refine forall_congr' fun b => forall_congr' fun hb => ?_
    have hcount := hJ.countAt_le J.fresh (J.keyAt J.fresh b)
    have hpos := countAt_pos (m := J.fresh) hb
    rw [if_neg (by omega), J.keyAt_fresh hfresh hb, refsAfter, if_neg hm,
      and_iff_left (keyAt_cases J.fresh b)]
    by_cases hstale : J.stale = J.keyAt J.fresh b
    · rw [if_pos hstale, ← hstale]
      simp only [forall_const]
      omega
    · rw [if_neg hstale]
      have : ¬J.keyAt J.fresh b = J.stale := fun h => hstale h.symm
      simp only [this, false_imp_iff, iff_true]
      omega

end WriteJob

namespace Client

open WriteJob

/-- Over a reference-counted store, a write that fails does so at one of the blocks it touches, and
every block of the file is kept if and only if this block `Survives`. -/
theorem fuseWrite_failed_iff {st : BlockStore B} {v : StoreView B} (hst : st.RefCounted v)
    {doHash : List UInt8 → Key} {S : Set (List UInt8)} (hinj : S.InjOn doHash) {io : Io}
    (hio : ∀ off, io.pread off = .full) {c : Client (B × List StoreCall) P} {fh : ℕ} {fd : ℤ}
    {stSize : ℤ} {n : ℕ} (hctx : c.contexts fh = some ⟨fd, stSize⟩) (hino : c.os.ino fd = some n)
    (hlog : c.store.2 = []) (haddr : Addressed doHash S (v.chunk c.store.1)) {buf : List UInt8}
    {offset : ℤ} (h₀ : 0 ≤ offset) (hmax : offset + buf.length < 2 ^ 63) {junk : Key} {J : WriteJob}
    (hJ : J = c.writeJob v doHash n buf offset junk)
    (hheld : ∀ k, entryCount (c.os.inodes n) J.live k ≤ v.refs c.store.1 k)
    (hnew : ∀ b < J.live, J.newBlock b ∈ S) {c' : Client (B × List StoreCall) P}
    (hrun : c.fuseWrite doHash st.recorded io fh buf offset junk = some (c', none))
    (hS : ∀ x ∈ puts c'.store.2, x.2 ∈ S) :
    ∃ m ∈ touched offset (offset + buf.length), ∃ fault, J.FailsAt io c'.store.2 m fault ∧
      (J.BlocksKept (c'.os.inodes n) (v.chunk c'.store.1) ↔ J.Survives m fault) := by
  subst hJ
  have hready := writeJob_ready hst hinj haddr hheld
  obtain ⟨w, hw, hok, rfl⟩ := fuseWrite_none hctx hrun
  have hstore : c.store = (c.store.1, []) := by rw [← hlog]
  rw [hstore] at hw
  obtain ⟨m, hm, fault, hleft, hmoved⟩ :=
    (writeLoop_job hst hready hio hino h₀ hmax rfl rfl rfl hw hS).2 hok
  exact ⟨m, hm, fault, ⟨hleft.delCount, hleft.putCount, hmoved⟩,
    hleft.survives_iff hst hready hnew⟩

/-- A block of fives. -/
def fives : ChunkBytes := ⟨List.replicate 4096 5, List.length_replicate⟩

/-- A file of one block of fives, to which there are `extra` references more. -/
def fivesFile (extra : ℕ) : Client (Table × List StoreCall) ℕ :=
  ofFile (metafile 4096 [firstByte [5]]) 4096
    (update (fun _ => none) (firstByte [5]) (some (fives, extra)), [])

theorem fivesFile_chunk {extra : ℕ} {k : Key} {d : List UInt8}
    (h : Table.view.chunk (fivesFile extra).store.1 k = some d) :
    k = firstByte [5] ∧ d = fives.val := by
  by_cases hk : k = firstByte [5]
  · subst hk
    have hchunk : Table.view.chunk (fivesFile extra).store.1 (firstByte [5]) = some fives.val := by
      simp [fivesFile, ofFile, Table.view]
    exact ⟨rfl, Option.some.inj (h.symm.trans hchunk)⟩
  · simp [fivesFile, ofFile, Table.view, hk] at h

/-- The `pwrite` for a block with another reference moves nothing : the block is kept. -/
theorem fuseWrite_failed_shared :
    ∃ c' : Client (Table × List StoreCall) ℕ,
      (fivesFile 1).fuseWrite firstByte (table true).recorded { pwrite := fun _ _ => some 0 } 0 [6]
        0 Key.zero = some (c', none) ∧
      ((fivesFile 1).writeJob Table.view firstByte 0 [6] 0 Key.zero).BlocksKept (c'.os.inodes 0)
        (Table.view.chunk c'.store.1) := by
  set io : Io := { pwrite := fun _ _ => some 0 } with hio
  set J := (fivesFile 1).writeJob Table.view firstByte 0 [6] 0 Key.zero with hJ
  have hrun : ((fivesFile 1).fuseWrite firstByte (table true).recorded io 0 [6] 0 Key.zero).map
      (fun r => (puts r.1.store.2, r.2)) = some ([], none) := by
    decide +kernel
  obtain ⟨⟨c', ret⟩, hwrite, hres⟩ := Option.map_eq_some_iff.1 hrun
  obtain ⟨hputs, rfl⟩ := Prod.mk.inj hres
  have hlive : J.live = 1 := by decide +kernel
  have hold : J.oldKey 0 = firstByte [5] := by decide +kernel
  have hhash : firstByte (J.newBlock 0) = firstByte [6] := by decide +kernel
  have hinj : Set.InjOn firstByte {fives.val, J.newBlock 0} := by
    have hne : firstByte fives.val ≠ firstByte (J.newBlock 0) := by
      rw [hhash]
      decide +kernel
    exact Set.injOn_pair.2 fun heq => (hne heq).elim
  have haddr : Addressed firstByte {fives.val, J.newBlock 0}
      (Table.view.chunk (fivesFile 1).store.1) := by
    intro k d hd
    obtain ⟨hk, hd'⟩ := fivesFile_chunk hd
    rw [hk, hd']
    exact ⟨Or.inl rfl, rfl⟩
  have hrefs : Table.view.refs (fivesFile 1).store.1 (firstByte [5]) = 2 := by
    simp [fivesFile, ofFile, Table.view]
  have hentry : entryBytes ((fivesFile 1).os.inodes 0) 0 = (firstByte [5]).val := by
    decide +kernel
  have hheld : ∀ k, entryCount ((fivesFile 1).os.inodes 0) J.live k ≤
      Table.view.refs (fivesFile 1).store.1 k := by
    intro k
    have hcount := entryCount_succ ((fivesFile 1).os.inodes 0) 0 k
    rw [hlive, hcount, hentry]
    by_cases hk : firstByte [5] = k
    · rw [← hk, hrefs, if_pos rfl]
      exact Nat.le_succ 1
    · rw [if_neg fun h => hk (Subtype.ext h)]
      exact Nat.zero_le _
  obtain ⟨m, hm, fault, hfails, hiff⟩ := fuseWrite_failed_iff (table_refCounted true) hinj
    (fun _ => rfl) (rfl : (fivesFile 1).contexts 0 = some ⟨3, 4096⟩) rfl rfl haddr le_rfl
    (by decide) hJ hheld (fun b hb => by
      obtain rfl : b = 0 := by omega
      exact Or.inr rfl) hwrite (by rw [hputs]; simp)
  refine ⟨c', hwrite, hiff.2 ?_⟩
  have htouched : touched 0 (0 + ([6] : List UInt8).length) = [0] := by decide
  rw [htouched, List.mem_singleton] at hm
  subst hm
  cases fault with
  | put =>
    have := hfails.putCount
    simp [hputs] at this
  | pwrite moved =>
    obtain ⟨-, rfl⟩ := hfails.moved moved rfl
    rw [Survives, if_pos (by omega)]
    refine Or.inl ⟨?_, ?_⟩
    · change (J.oldKey 0).load [] = J.oldKey 0
      exact Key.load_nil _
    · rw [hold]
      have hfirst : J.first = 0 := by decide
      have hrefs' : J.refs (firstByte [5]) = 2 := hrefs
      rw [refsAt, hfirst, Nat.add_sub_cancel, hrefs']
      exact one_lt_two

/-- The put of a block fails whose old chunk has no other reference : the entry names no chunk. -/
theorem fivesFile_lost :
    ∃ c' : Client (Table × List StoreCall) ℕ,
      (fivesFile 0).fuseWrite firstByte (table false).recorded {} 0 [6] 0 Key.zero =
        some (c', none) ∧
      ¬((fivesFile 0).writeJob Table.view firstByte 0 [6] 0 Key.zero).BlocksKept (c'.os.inodes 0)
        (Table.view.chunk c'.store.1) := by
  have hrun : ((fivesFile 0).fuseWrite firstByte (table false).recorded {} 0 [6] 0 Key.zero).map
      (fun r => ((r.1.store.1 (entryKey (r.1.os.inodes 0) 0)).isNone, r.2)) =
      some (true, none) := by
    decide +kernel
  obtain ⟨⟨c', ret⟩, hwrite, hres⟩ := Option.map_eq_some_iff.1 hrun
  obtain ⟨hnone, rfl⟩ := Prod.mk.inj hres
  refine ⟨c', hwrite, fun hkept => ?_⟩
  have hlen : ((fivesFile 0).os.inodes 0).length = 32 := by decide +kernel
  have hentry : HasEntry ((fivesFile 0).os.inodes 0) 0 := by
    rw [hasEntry_iff]
    omega
  obtain ⟨-, d, hd, -⟩ := hkept 0 hentry
  have hnone' : c'.store.1 (entryKey (c'.os.inodes 0) 0) = none := Option.isNone_iff_eq_none.1 hnone
  simp only [Table.view, hnone', Option.map_none, reduceCtorEq] at hd

/-- The store is a reference-counted one, and the block is lost. -/
theorem failed_write_counterexample :
    (table false).RefCounted Table.view ∧
    ∃ c' : Client (Table × List StoreCall) ℕ,
      (fivesFile 0).fuseWrite firstByte (table false).recorded {} 0 [6] 0 Key.zero =
        some (c', none) ∧
      ¬((fivesFile 0).writeJob Table.view firstByte 0 [6] 0 Key.zero).BlocksKept (c'.os.inodes 0)
        (Table.view.chunk c'.store.1) :=
  ⟨table_refCounted false, fivesFile_lost⟩

/-! ## What the caller sees -/

/-- `fuse_write` returns a negative value if and only if it failed and `errno` was set. -/
theorem fuseWrite_returned_neg_iff {doHash : List UInt8 → Key} {st : BlockStore B} {io : Io}
    {c c' : Client B P} {fh : ℕ} {buf : List UInt8} {offset : ℤ} {junk : Key} {ret : Option ℤ}
    (hbuf : buf.length < 2 ^ 31)
    (hrun : c.fuseWrite doHash st io fh buf offset junk = some (c', ret)) {errno : ℤ}
    (herrno : 0 ≤ errno) : returned errno ret < 0 ↔ ret = none ∧ errno ≠ 0 := by
  obtain ⟨ctx, -, hw⟩ := Option.bind_eq_some_iff.1 hrun
  obtain ⟨w, -, hres⟩ := Option.map_eq_some_iff.1 hw
  cases hok : w.ok with
  | false =>
    obtain rfl : none = ret := by simpa [hok] using congrArg Prod.snd hres
    simp only [returned, Option.getD_none, true_and]
    omega
  | true =>
    obtain rfl : some (int32 buf.length) = ret := by simpa [hok] using congrArg Prod.snd hres
    have hlen : int32 buf.length = buf.length := int32_of_range (by omega) (by omega)
    simp [returned, hlen]

/-- With `errno` zero the put of a block fails, `0` is returned, and the block is lost. -/
theorem fuseWrite_loses_silently :
    ∃ (c' : Client (Table × List StoreCall) ℕ) (ret : Option ℤ),
      (fivesFile 0).fuseWrite firstByte (table false).recorded {} 0 [6] 0 Key.zero =
        some (c', ret) ∧ returned 0 ret = 0 ∧
      ¬((fivesFile 0).writeJob Table.view firstByte 0 [6] 0 Key.zero).BlocksKept (c'.os.inodes 0)
        (Table.view.chunk c'.store.1) := by
  obtain ⟨c', hwrite, hlost⟩ := fivesFile_lost
  exact ⟨c', none, hwrite, rfl, hlost⟩

end Client

end Agilefs
