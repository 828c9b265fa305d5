import Agilefs.WriteRun

/-!
# Writes over a lasting store

In a lasting store (`BlockStore.Lasting`) every block put stays readable, whatever is deleted.
`WriteJob.dataAt` is the block a write puts for a block of the file, as a function of what the
write starts from, and `Stored` the state after the blocks before `m`. `writeLoop_stores` : over a
lasting store the loop of `fuse_write` comes to its end, and has stored all its blocks.

A write behind the end of the metafile leaves entries of zeros for the blocks it skips.
-/

namespace Agilefs

open CInt Posix Function ByteFile

variable {B P : Type*}

/-! ## Lasting stores -/

/-- The laws of a store that keeps every block. A read of `n` bytes from `off` on yields all of
them that are in the block, and may go on behind it. -/
structure BlockStore.Lasting (st : BlockStore B) (v : StoreView B) : Prop where
  length : ∀ s k d, v.chunk s k = some d → d.length = 4096
  absent : ∀ s k n off, v.chunk s k = none → st.blockRead s k n off = none
  present : ∀ s k d n (off : ℕ), v.chunk s k = some d → off < 4096 →
    ∃ bytes, st.blockRead s k n off = some bytes ∧ min n (4096 - off) ≤ bytes.length ∧
      bytes.length ≤ n ∧ ∀ j < min n (4096 - off), bytes[j]? = d[off + j]?
  put : ∀ s k d, ∃ s' ret, st.putNewChunk s k d = some (s', ret) ∧
    (d.length = 4096 → ret = 0 ∧
      v.chunk s' = update (v.chunk s) k (some ((v.chunk s k).getD d)))
  del : ∀ s k, ∃ s' ret, st.delChunk s k = some (s', ret) ∧ v.chunk s' = v.chunk s

section Laws

variable {st : BlockStore B} {v : StoreView B} (hst : st.Lasting v)

include hst

/-- All of a block is read. -/
theorem BlockStore.Lasting.read (s : B) (k : Key) : st.blockRead s k 4096 0 = v.chunk s k := by
  cases hc : v.chunk s k with
  | none => exact hst.absent s k 4096 0 hc
  | some d =>
    obtain ⟨bytes, hread, hmin, hmax, hbytes⟩ := hst.present s k d 4096 0 hc (by decide)
    rw [Nat.cast_zero] at hread
    have hd := hst.length s k d hc
    rw [hread, Option.some_inj]
    refine List.ext_getElem? fun j => ?_
    by_cases hj : j < 4096
    · rw [hbytes j (by omega), zero_add]
    · rw [List.getElem?_eq_none (by omega), List.getElem?_eq_none (by omega)]

theorem BlockStore.Lasting.put_spec {s s' : B} {k : Key} {d : List UInt8} {ret : ℤ}
    (hd : d.length = 4096) (h : st.putNewChunk s k d = some (s', ret)) :
    ret = 0 ∧ v.chunk s' = update (v.chunk s) k (some ((v.chunk s k).getD d)) := by
  obtain ⟨s₁, ret₁, h₁, hspec⟩ := hst.put s k d
  rw [h₁, Option.some.injEq, Prod.mk.injEq] at h
  obtain ⟨rfl, rfl⟩ := h
  exact hspec hd

theorem BlockStore.Lasting.del_spec {s s' : B} {k : Key} {ret : ℤ}
    (h : st.delChunk s k = some (s', ret)) : v.chunk s' = v.chunk s := by
  obtain ⟨s₁, ret₁, h₁, hchunk⟩ := hst.del s k
  rw [h₁, Option.some.injEq, Prod.mk.injEq] at h
  obtain ⟨rfl, rfl⟩ := h
  exact hchunk

theorem BlockStore.Lasting.put_isSome (s : B) (k : Key) (d : List UInt8) :
    (st.putNewChunk s k d).isSome := by
  obtain ⟨s', ret, hput, -⟩ := hst.put s k d
  rw [hput]
  rfl

theorem BlockStore.Lasting.del_isSome (s : B) (k : Key) : (st.delChunk s k).isSome := by
  obtain ⟨s', ret, hdel, -⟩ := hst.del s k
  rw [hdel]
  rfl

end Laws

/-! ## Whole metafiles -/

/-- No entry is cut off by the end of the metafile. -/
def Whole (f : ByteFile) : Prop := ∀ b, HasEntry f b ∨ entryBytes f b = []

/-- Only the entries matter. -/
theorem Whole.congr {f f' : ByteFile} (hf : Whole f)
    (h : ∀ b, entryBytes f' b = entryBytes f b) : Whole f' := by
  intro b
  rw [HasEntry, h]
  exact hf b

/-- Every entry after one is written. A gap before it is filled with zeros. -/
theorem Whole.entryBytes_writeEntry {f : ByteFile} (hf : Whole f) (m : ℕ) (k : Key) (b : ℕ) :
    entryBytes (f.pwrite k.val (m * 16 + 16)) b =
      if b = m then k.val else if HasEntry f b ∨ m < b then entryBytes f b else Key.zero.val := by
  have hk := k.property
  split_ifs with hbm hkept
  · rw [hbm]
    exact entryBytes_writeEntry_self f m k
  · rcases hkept with hentry | hgt
    · exact entryBytes_writeEntry_of_ne k hbm hentry
    · exact pread_pwrite_of_ge f k.val (by omega)
  · -- block `b` lies in the gap
    rw [not_or] at hkept
    have hnil := congrArg List.length ((hf b).resolve_left hkept.1)
    rw [entryBytes, length_pread, List.length_nil] at hnil
    refine List.ext_getElem? fun j => ?_
    rw [entryBytes, getElem?_pread, getElem?_pwrite f k.val_ne_nil, Key.zero,
      List.getElem?_replicate]
    split_ifs with h₁ h₂
    · rw [List.getElem?_eq_none (by omega), Option.getD_none]
    · omega
    · omega
    · rfl

/-- Byte `p` of the file with the metafile `f`, zero in a block without a chunk. -/
def byteAt (chunk : Key → Option (List UInt8)) (f : ByteFile) (p : ℕ) : UInt8 :=
  if HasEntry f (p / 4096) then
    ((chunk (entryKey f (p / 4096))).getD zeroBlock).getD (p % 4096) 0
  else 0

theorem byteAt_congr {chunk : Key → Option (List UInt8)} {f f' : ByteFile}
    (h : ∀ b, entryBytes f' b = entryBytes f b) (p : ℕ) : byteAt chunk f' p = byteAt chunk f p := by
  have hentry : HasEntry f' (p / 4096) ↔ HasEntry f (p / 4096) := by rw [HasEntry, HasEntry, h]
  have hkey : entryKey f' (p / 4096) = entryKey f (p / 4096) := by rw [entryKey, entryKey, h]
  rw [byteAt, byteAt, hkey]
  exact if_congr hentry rfl rfl

namespace WriteJob

variable (J : WriteJob)

/-! ## The blocks put -/

/-- What is read as the old content of the first block written. -/
def firstBase : List UInt8 :=
  if J.first < J.live then J.oldBlock J.first else (J.chunk J.junk).getD zeroBlock

/-- What is read as the old content of block `b` : without an entry, the block before. -/
def baseAt (b : ℕ) : List UInt8 :=
  if b < J.live then J.oldBlock b
  else if J.first < b then J.overwritten J.firstBase (b - 1) else J.firstBase

/-- The block put for block `b`. -/
def dataAt (b : ℕ) : List UInt8 := J.overwritten (J.baseAt b) b

/-- The entry of block `b`, once the blocks before `m` are written. -/
def entryAt (m b : ℕ) : List UInt8 :=
  if J.first ≤ b ∧ b < m then (J.doHash (J.dataAt b)).val
  else if b < J.live then entryBytes J.f b
  else if J.first < m ∧ b < m then Key.zero.val else []

/-- The metafile has whole entries, each of a hole or of a block in the store, and the hash has no
collisions on the blocks `S` and does not take them for holes. -/
structure Sparse (S : Set (List UInt8)) : Prop where
  whole : Whole J.f
  named : ∀ b < J.live, J.oldKey b = Key.zero ∨ (J.chunk (J.oldKey b)).isSome
  addressed : Addressed J.doHash S J.chunk
  inj : S.InjOn J.doHash
  zero : ∀ d ∈ S, J.doHash d ≠ Key.zero

/-- The blocks before `m` are stored. -/
structure Stored (S : Set (List UInt8)) (v : StoreView B) (n : ℕ)
    (w : Client.WriteState (B × List StoreCall) P) (m : ℕ) : Prop where
  le : J.first ≤ m
  entries : ∀ b, entryBytes (w.os.inodes n) b = J.entryAt m b
  hashKey : w.hashKey = if J.first < m then J.doHash (J.dataAt (m - 1)) else J.junk
  addressed : Addressed J.doHash S (v.chunk w.store.1)
  kept : ∀ k d, J.chunk k = some d → v.chunk w.store.1 k = some d
  stored : ∀ b, J.first ≤ b → b < m →
    v.chunk w.store.1 (J.doHash (J.dataAt b)) = some (J.dataAt b)
  start : m = J.first → v.chunk w.store.1 = J.chunk

variable {J} {S : Set (List UInt8)}

/-- The old bytes of the file. -/
theorem getD_oldBlock (p : ℕ) :
    (J.oldBlock (p / 4096)).getD (p % 4096) 0 = byteAt J.chunk J.f p := by
  rw [oldBlock, byteAt, oldKey]
  by_cases hentry : HasEntry J.f (p / 4096)
  · rw [if_pos hentry, if_pos (J.hasEntry_iff_live.1 hentry)]
  · rw [if_neg hentry, if_neg (mt J.hasEntry_iff_live.2 hentry), getD_zeroBlock]

theorem length_entryAt {m b : ℕ} (h : J.entryAt m b ≠ []) : (J.entryAt m b).length = 16 := by
  unfold entryAt at h ⊢
  split_ifs at h ⊢ with h₁ h₂ h₃
  · exact (J.doHash _).property
  · exact J.hasEntry_iff_live.2 h₂
  · exact Key.zero.property
  · exact absurd rfl h

/-- A hole names no block. -/
theorem Sparse.chunk_zero {chunk : Key → Option (List UInt8)} (h : J.Sparse S)
    (haddr : Addressed J.doHash S chunk) : chunk Key.zero = none := by
  refine Option.eq_none_iff_forall_ne_some.2 fun d hd => ?_
  obtain ⟨hS, hhash⟩ := haddr _ _ hd
  exact h.zero d hS hhash

/-- Behind the first block the block before is all written, so its base does not matter. -/
theorem dataAt_eq_of_next (h₀ : 0 ≤ J.offset) {b : ℕ} (hb : J.first ≤ b)
    (hnext : ((b + 1 : ℕ) : ℤ) * 4096 < J.stop) : J.dataAt b = J.overwritten J.firstBase b := by
  rcases Nat.eq_or_lt_of_le hb with rfl | hlt
  · rw [dataAt, baseAt]
    split_ifs with hlive hfirst
    · rw [firstBase, if_pos hlive]
    · exact absurd hfirst (lt_irrefl _)
    · rfl
  · refine J.overwritten_congr fun j hj hout => (hout ?_).elim
    unfold first blockIndex at hlt
    unfold Inside
    omega

section Step

variable {v : StoreView B} {n m : ℕ} {w : Client.WriteState (B × List StoreCall) P}

theorem Stored.whole (h : J.Stored S v n w m) : Whole (w.os.inodes n) := by
  intro b
  rw [HasEntry, h.entries]
  exact or_iff_not_imp_right.2 length_entryAt

/-- The old keys name what they did. -/
theorem Stored.chunk_oldKey (hJ : J.Sparse S) (h : J.Stored S v n w m) {b : ℕ} (hb : b < J.live) :
    v.chunk w.store.1 (J.oldKey b) = J.chunk (J.oldKey b) := by
  rcases hJ.named b hb with hzero | hsome
  · rw [hzero, hJ.chunk_zero h.addressed, hJ.chunk_zero hJ.addressed]
  · obtain ⟨d, hd⟩ := Option.isSome_iff_exists.1 hsome
    rw [hd, h.kept _ _ hd]

/-- What is read as the old content of block `m`. -/
theorem Stored.base (hJ : J.Sparse S) (h : J.Stored S v n w m) (h₀ : 0 ≤ J.offset)
    (hm : (m : ℤ) * 4096 < J.stop) {key : Key}
    (hkey : key = w.hashKey.load (entryBytes (w.os.inodes n) m)) :
    (v.chunk w.store.1 key).getD zeroBlock = J.baseAt m := by
  have hle := h.le
  rw [h.entries, entryAt, if_neg (by omega)] at hkey
  rw [baseAt]
  by_cases hlive : m < J.live
  · rw [if_pos hlive, (J.hasEntry_iff_live.2 hlive).load_eq] at hkey
    rw [if_pos hlive, oldBlock, if_pos hlive, hkey, ← oldKey, h.chunk_oldKey hJ hlive]
  · rw [if_neg hlive, if_neg (by omega), Key.load_nil, h.hashKey] at hkey
    rw [if_neg hlive, hkey]
    split_ifs with hfirst
    · have hprev : ((m - 1 + 1 : ℕ) : ℤ) * 4096 < J.stop := by
        rw [Nat.sub_add_cancel (by omega)]
        exact hm
      rw [h.stored (m - 1) (by omega) (by omega), Option.getD_some,
        dataAt_eq_of_next h₀ (by omega) hprev]
    · have hmf : m = J.first := by omega
      rw [h.start hmf, firstBase, if_neg (hmf ▸ hlive)]

/-- One more entry, and zeros in a gap before the first. -/
theorem Stored.entries_succ (h : J.Stored S v n w m) (b : ℕ) :
    entryBytes ((w.os.inodes n).pwrite (J.doHash (J.dataAt m)).val (m * 16 + 16)) b =
      J.entryAt (m + 1) b := by
  have hle := h.le
  have hfull : HasEntry (w.os.inodes n) b ↔ J.entryAt m b ≠ [] := by
    rw [HasEntry, h.entries]
    exact ⟨fun hlen => List.ne_nil_of_length_pos (by omega), length_entryAt⟩
  simp only [h.whole.entryBytes_writeEntry, hfull, h.entries]
  by_cases hbm : b = m
  · rw [if_pos hbm, entryAt, if_pos (by omega), hbm]
  rw [if_neg hbm]
  by_cases hwritten : J.first ≤ b ∧ b < m
  · rw [entryAt, if_pos hwritten, if_pos (Or.inl (J.doHash (J.dataAt b)).val_ne_nil), entryAt,
      if_pos (by omega)]
  rw [entryAt, entryAt, if_neg hwritten, if_neg (by omega : ¬(J.first ≤ b ∧ b < m + 1))]
  by_cases hlive : b < J.live
  · rw [if_pos hlive, if_pos hlive, if_pos (Or.inl (J.hasEntry_iff_live.2 hlive).ne_nil)]
  rw [if_neg hlive, if_neg hlive]
  by_cases hgap : J.first < m ∧ b < m
  · rw [if_pos hgap, if_pos (Or.inl Key.zero.val_ne_nil), if_pos (by omega)]
  rw [if_neg hgap]
  by_cases hb : m < b
  · rw [if_pos (Or.inr hb), if_neg (by omega)]
  · rw [if_neg (by simpa using hb), if_pos (by omega)]

/-- The block `m` is stored. -/
theorem Stored.next (hJ : J.Sparse S) (h : J.Stored S v n w m) (hS : J.dataAt m ∈ S)
    {w' : Client.WriteState (B × List StoreCall) P}
    (hos : w'.os = w.os.setContent n
      ((w.os.inodes n).pwrite (J.doHash (J.dataAt m)).val (m * 16 + 16)))
    (hhash : w'.hashKey = J.doHash (J.dataAt m))
    (hchunk : v.chunk w'.store.1 = update (v.chunk w.store.1) (J.doHash (J.dataAt m))
      (some ((v.chunk w.store.1 (J.doHash (J.dataAt m))).getD (J.dataAt m)))) :
    J.Stored S v n w' (m + 1) := by
  have hle := h.le
  obtain ⟨hself, haddr⟩ := h.addressed.put hJ.inj hS hchunk
  have hmono : ∀ k d, v.chunk w.store.1 k = some d → v.chunk w'.store.1 k = some d := by
    intro k d hd
    rw [hchunk, update_apply]
    split_ifs with hk
    · rw [← hk, hd, Option.getD_some]
    · exact hd
  refine ⟨by omega, fun b => ?_, ?_, haddr, fun k d hd => hmono k d (h.kept k d hd),
    fun b hb hbm => ?_, fun hm => by omega⟩
  · rw [hos, Os.setContent_inodes, update_self]
    exact h.entries_succ b
  · rw [if_pos (by omega), Nat.add_sub_cancel, hhash]
  · rcases Nat.lt_succ_iff_lt_or_eq.1 hbm with hlt | rfl
    · exact hmono _ _ (h.stored b hb hlt)
    · rw [hself, update_self]

/-- The entry of a block : the one written, the old one, one of a hole, or none. -/
theorem Stored.entry_cases (h : J.Stored S v n w m) (b : ℕ) :
    (J.first ≤ b ∧ b < m) ∧ HasEntry (w.os.inodes n) b ∧
      entryKey (w.os.inodes n) b = J.doHash (J.dataAt b) ∨
    ¬(J.first ≤ b ∧ b < m) ∧
      (HasEntry J.f b ∧ HasEntry (w.os.inodes n) b ∧
          entryKey (w.os.inodes n) b = entryKey J.f b ∨
        ¬HasEntry J.f b ∧ (HasEntry (w.os.inodes n) b →
          entryKey (w.os.inodes n) b = Key.zero)) := by
  have hentry := h.entries b
  rw [entryAt] at hentry
  have hnames : ∀ k : Key, entryBytes (w.os.inodes n) b = k.val →
      HasEntry (w.os.inodes n) b ∧ entryKey (w.os.inodes n) b = k := by
    intro k hk
    have hhas : HasEntry (w.os.inodes n) b := by rw [HasEntry, hk, k.property]
    exact ⟨hhas, Subtype.ext (hhas.entryKey_val.trans hk)⟩
  split_ifs at hentry with h₁ h₂ h₃
  · exact Or.inl ⟨h₁, hnames _ hentry⟩
  · have hold := J.hasEntry_iff_live.2 h₂
    exact Or.inr ⟨h₁, Or.inl ⟨hold, hnames _ (hentry.trans hold.entryKey_val.symm)⟩⟩
  · exact Or.inr ⟨h₁, Or.inr ⟨mt J.hasEntry_iff_live.1 h₂, fun _ => (hnames _ hentry).2⟩⟩
  · refine Or.inr ⟨h₁, Or.inr ⟨mt J.hasEntry_iff_live.1 h₂, fun hhas => ?_⟩⟩
    rw [HasEntry, hentry, List.length_nil] at hhas
    omega

/-- Every entry is that of a hole or of a block in the store. -/
theorem Stored.named (hJ : J.Sparse S) (h : J.Stored S v n w m) {b : ℕ}
    (hb : HasEntry (w.os.inodes n) b) : entryKey (w.os.inodes n) b = Key.zero ∨
      (v.chunk w.store.1 (entryKey (w.os.inodes n) b)).isSome := by
  rcases h.entry_cases b with ⟨hwritten, -, hkey⟩ | ⟨-, ⟨hold, -, hkey⟩ | ⟨-, hkey⟩⟩
  · rw [hkey, h.stored b hwritten.1 hwritten.2]
    exact Or.inr rfl
  · have hlive := J.hasEntry_iff_live.1 hold
    rw [hkey, ← oldKey, h.chunk_oldKey hJ hlive]
    exact hJ.named b hlive
  · exact Or.inl (hkey hb)

/-- The bytes of the file : those of the blocks written, and the old ones. -/
theorem Stored.byteAt_eq (hJ : J.Sparse S) (h : J.Stored S v n w m) (p : ℕ) :
    byteAt (v.chunk w.store.1) (w.os.inodes n) p =
      if J.first ≤ p / 4096 ∧ p / 4096 < m then (J.dataAt (p / 4096)).getD (p % 4096) 0
      else byteAt J.chunk J.f p := by
  rcases h.entry_cases (p / 4096) with ⟨hwritten, hhas, hkey⟩ | ⟨hnot, hcase⟩
  · rw [if_pos hwritten, byteAt, if_pos hhas, hkey, h.stored _ hwritten.1 hwritten.2,
      Option.getD_some]
  rw [if_neg hnot, byteAt, byteAt]
  rcases hcase with ⟨hold, hhas, hkey⟩ | ⟨hnone, hkey⟩
  · rw [if_pos hold, if_pos hhas, hkey, ← oldKey, h.chunk_oldKey hJ (J.hasEntry_iff_live.1 hold)]
  · rw [if_neg hnone]
    split_ifs with hhas
    · rw [hkey hhas, hJ.chunk_zero h.addressed, Option.getD_none, getD_zeroBlock]
    · rfl

end Step

/-! ## The loop -/

/-- Before the first iteration. -/
theorem stored_first {v : StoreView B} (hJ : J.Sparse S) {os : Os P} {n : ℕ}
    (hf : os.inodes n = J.f) {s : B × List StoreCall} (hchunk : v.chunk s.1 = J.chunk) :
    J.Stored S v n ⟨os, s, J.junk, J.offset, true⟩ J.first := by
  refine ⟨le_rfl, fun b => ?_, (if_neg (lt_irrefl _)).symm, ?_, fun k d hd => ?_,
    fun b h₁ h₂ => absurd h₂ (not_lt.2 h₁), fun _ => hchunk⟩
  · change entryBytes (os.inodes n) b = J.entryAt J.first b
    rw [hf, entryAt, if_neg (by omega)]
    split_ifs with hlive hgap
    · rfl
    · exact absurd hgap.1 (lt_irrefl _)
    · exact (hJ.whole b).resolve_left (mt J.hasEntry_iff_live.1 hlive)
  · rw [hchunk]
    exact hJ.addressed
  · rw [hchunk]
    exact hd

/-- A write on its way : the blocks up to `w.i` are stored, if all blocks put are in `S`. -/
structure Storing (J : WriteJob) (S : Set (List UInt8)) (v : StoreView B) (fd : ℤ) (n : ℕ)
    (w : Client.WriteState (B × List StoreCall) P) : Prop where
  ok : w.ok = true
  ino : w.os.ino fd = some n
  atBlock : w.i < J.offset + J.buf.length → AtBlock J.offset w.i
  stored : (∀ x ∈ puts w.store.2, x.2 ∈ S) → J.Stored S v n w (doneTo J.offset w.i)

/-- An iteration stores the next block. -/
theorem Storing.step {st : BlockStore B} {v : StoreView B} (hst : st.Lasting v) (hJ : J.Sparse S)
    {fd : ℤ} {n : ℕ} (h₀ : 0 ≤ J.offset) (hmax : J.offset + J.buf.length < 2 ^ 63)
    {w w' : Client.WriteState (B × List StoreCall) P} (h : J.Storing S v fd n w)
    (hle : J.offset ≤ w.i) (hlt : w.i < J.offset + J.buf.length)
    (hbody : Client.writeBody J.doHash st.recorded {} fd J.buf J.offset w = some w') :
    J.Storing S v fd n w' := by
  have hat := h.atBlock hlt
  obtain ⟨key, d, s₁, ret, ret', hkey, hd, hdel, hhash, hput, hos, hok, hi⟩ :=
    Client.writeBody_spec h.ino h₀ hmax hle hlt hbody
  have hread : st.recorded.blockRead w.store key 4096 0 = v.chunk w.store.1 key :=
    hst.read w.store.1 key
  rw [blockData_eq_overwritten J hread (hst.length w.store.1 key) h₀ hle hlt hat] at hd
  rw [hhash] at hput
  obtain ⟨hput', hlog⟩ := recorded_putNewChunk hput
  obtain ⟨rfl, hchunk'⟩ := hst.put_spec (by rw [hd, J.length_overwritten]) hput'
  rw [hst.del_spec (recorded_delChunk hdel).1] at hchunk'
  rw [if_pos rfl] at hi
  refine ⟨by rw [hok]; rfl, by rw [hos]; exact h.ino, fun hlt' => ?_, fun hS => ?_⟩
  · rw [hi] at hlt' ⊢
    exact atBlock_next hle hlt hlt'
  have hprev := h.stored fun x hx => hS x (writeBody_puts hbody x hx)
  rw [doneTo_of_atBlock hat] at hprev
  have hm : ((blockIndex w.i : ℕ) : ℤ) * 4096 < J.stop := by
    unfold blockIndex stop
    omega
  have hdata : d = J.dataAt (blockIndex w.i) := by
    rw [hd, hprev.base hJ h₀ hm hkey, dataAt]
  have hmem : d ∈ S := hS (J.doHash d, d) (by rw [hlog]; simp)
  rw [hdata] at hhash hchunk' hmem
  rw [hi, doneTo_next h₀ hle hlt]
  exact hprev.next hJ hmem (by rw [hos, hhash]) hhash hchunk'

/-- Over a lasting store all blocks of a write are stored. -/
theorem writeLoop_stores {st : BlockStore B} {v : StoreView B} (hst : st.Lasting v)
    (hJ : J.Sparse S) {os : Os P} {fd : ℤ} {n : ℕ} (hino : os.ino fd = some n) (h₀ : 0 ≤ J.offset)
    (hmax : J.offset + J.buf.length < 2 ^ 63) (hf : os.inodes n = J.f) {s : B × List StoreCall}
    (hchunk : v.chunk s.1 = J.chunk) {w : Client.WriteState (B × List StoreCall) P}
    (hrun : Client.writeLoop J.doHash st.recorded {} fd J.buf J.offset
      ⟨os, s, J.junk, J.offset, true⟩ = some w) :
    w.ok = true ∧ w.os.ino fd = some n ∧
      ((∀ x ∈ puts w.store.2, x.2 ∈ S) → J.Stored S v n w (doneTo J.offset J.stop)) := by
  have hstart : J.Storing S v fd n
      (⟨os, s, J.junk, J.offset, true⟩ : Client.WriteState (B × List StoreCall) P) := by
    refine ⟨rfl, hino, fun _ => Or.inl rfl, fun _ => ?_⟩
    rw [doneTo_of_atBlock (Or.inl rfl)]
    exact stored_first hJ hf hchunk
  obtain ⟨h, hend⟩ := Client.writeLoop_invariant h₀ hmax (fun w hw => hw.ino)
    (fun w w' hw _ hle hlt hbody => Storing.step hst hJ h₀ hmax hw hle hlt hbody) hstart rfl hrun
  refine ⟨h.ok, h.ino, fun hS => ?_⟩
  rw [show J.stop = w.i from (hend h.ok).symm]
  exact h.stored hS

end WriteJob

/-! ## A shelf of chunks -/

/-- Blocks by key. -/
abbrev Shelf := Key → Option ChunkBytes

/-- What a shelf holds. It counts no references. -/
def Shelf.view : StoreView Shelf where
  chunk t k := (t k).map Subtype.val
  refs _ _ := 0

/-- A shelf as a store. -/
def shelf : BlockStore Shelf where
  blockRead t k n off := (t k).map fun d => (d.val.drop off.toNat).take n
  putNewChunk t k d :=
    match t k with
    | some _ => some (t, 0)
    | none => if h : d.length = 4096 then some (update t k (some ⟨d, h⟩), 0) else some (t, -1)
  delChunk t _ := some (t, 0)

theorem shelf_lasting : shelf.Lasting Shelf.view := by
  refine ⟨fun t k d hd => ?_, fun t k n off hk => ?_, fun t k d n off hk hoff => ?_,
    fun t k d => ?_, fun t k => ⟨t, 0, rfl, rfl⟩⟩
  · obtain ⟨e, -, rfl⟩ := Option.map_eq_some_iff.1 hd
    exact e.property
  · have hnone : t k = none := Option.map_eq_none_iff.1 hk
    simp only [shelf, hnone, Option.map_none]
  · obtain ⟨e, he, rfl⟩ := Option.map_eq_some_iff.1 hk
    have hlen := e.property
    refine ⟨(e.val.drop off).take n, by simp only [shelf, he, Option.map_some, Int.toNat_natCast],
      ?_, List.length_take_le _ _, fun j hj => ?_⟩
    · rw [List.length_take, List.length_drop, hlen]
    · rw [List.getElem?_take_of_lt (by omega), List.getElem?_drop]
  · cases hk : t k with
    | some e =>
      refine ⟨t, 0, by simp only [shelf, hk], fun _ => ⟨rfl, (update_eq_self_iff.2 ?_).symm⟩⟩
      simp only [Shelf.view, hk, Option.map_some, Option.getD_some]
    | none =>
      by_cases hd : d.length = 4096
      · refine ⟨update t k (some ⟨d, hd⟩), 0, by simp only [shelf, hk, hd, dite_true],
          fun _ => ⟨rfl, ?_⟩⟩
        funext k'
        by_cases hk' : k' = k <;> simp [Shelf.view, hk', hk]
      · exact ⟨t, -1, by simp only [shelf, hk, hd, dite_false], fun h => absurd h hd⟩

end Agilefs
