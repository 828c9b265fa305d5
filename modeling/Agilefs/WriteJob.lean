import Agilefs.RefCounted
import Agilefs.WriteFrame

/-!
# A write over a reference-counted store

What `fuse_write` does to a file and to a reference-counted store, iteration by iteration, also
if one of its calls fails. `WriteJob` is what the call starts from : the metafile, the chunks and
references of the store, the buffer and what the stack has in `hash_key`.

As long as the blocks written have entries, the write does what it should (`newBlock`, `newKey`,
`refsAt`). At the first block without an entry (`fresh`) the short `pread` leaves an older key in
`hash_key` (`stale`) : this key is read as if it were the old block, and deleted.
-/

namespace Agilefs

open CInt Posix Function ByteFile

variable {B P : Type*}

/-- What a write starts from. -/
structure WriteJob where
  doHash : List UInt8 → Key
  f : ByteFile
  chunk : Key → Option (List UInt8)
  refs : Key → ℕ
  buf : List UInt8
  offset : ℤ
  junk : Key

namespace WriteJob

variable (J : WriteJob)

/-- The end of the write. -/
def stop : ℤ := J.offset + J.buf.length

/-- The first block written. -/
def first : ℕ := blockIndex J.offset

/-- The number of blocks that have entries. -/
def live : ℕ := (J.f.length - 16) / 16

/-- The key of block `b` before the write. -/
def oldKey (b : ℕ) : Key := entryKey J.f b

/-- The content of block `b` before the write. -/
def oldBlock (b : ℕ) : List UInt8 :=
  if b < J.live then (J.chunk (J.oldKey b)).getD zeroBlock else zeroBlock

/-- Byte `j` of block `b` is written. -/
def Inside (b j : ℕ) : Prop :=
  J.offset ≤ (b : ℤ) * 4096 + j ∧ (b : ℤ) * 4096 + j < J.stop

instance (b j : ℕ) : Decidable (J.Inside b j) :=
  inferInstanceAs (Decidable (_ ∧ _))

/-- `base` as block `b`, with the part of the buffer that goes there. -/
def overwritten (base : List UInt8) (b : ℕ) : List UInt8 :=
  (List.range 4096).map fun j =>
    if J.Inside b j then J.buf.getD ((b : ℤ) * 4096 + j - J.offset).toNat 0 else base.getD j 0

/-- The content block `b` should have after the write. -/
def newBlock (b : ℕ) : List UInt8 := J.overwritten (J.oldBlock b) b

/-- Its key. -/
def newKey (b : ℕ) : Key := J.doHash (J.newBlock b)

/-- The key of block `b`, once the blocks before `m` are written. -/
def keyAt (m b : ℕ) : Key := if J.first ≤ b ∧ b < m then J.newKey b else J.oldKey b

/-- How many of the blocks with entries have the key `k`, once the blocks before `m` are
written. -/
def countAt (m : ℕ) (k : Key) : ℕ := Nat.count (fun b => J.keyAt m b = k) J.live

/-- The references to `k`, once the blocks before `m` are written. -/
def refsAt (m : ℕ) (k : Key) : ℕ := J.refs k + J.countAt m k - J.countAt J.first k

/-- The first block the write comes to that has no entry. -/
def fresh : ℕ := max J.first J.live

/-- The key in `hash_key` after the `pread` for block `fresh`. -/
def stale : Key :=
  (if J.first < J.live then J.newKey (J.live - 1) else J.junk).load (entryBytes J.f J.fresh)

/-- The store is content-addressed, with the blocks `S`, has a reference for each entry of the
file, and the hash has no collisions on these blocks. -/
structure Ready (S : Set (List UInt8)) : Prop where
  present : ∀ k, (J.chunk k).isSome ↔ 0 < J.refs k
  length : ∀ k d, J.chunk k = some d → d.length = 4096
  held : ∀ k, entryCount J.f J.live k ≤ J.refs k
  addressed : Addressed J.doHash S J.chunk
  inj : S.InjOn J.doHash

/-! ## Blocks -/

theorem hasEntry_iff_live {b : ℕ} : HasEntry J.f b ↔ b < J.live := by
  rw [hasEntry_iff, live]
  omega

@[simp] theorem length_overwritten (base : List UInt8) (b : ℕ) :
    (J.overwritten base b).length = 4096 := by
  rw [overwritten, List.length_map, List.length_range]

theorem getElem?_overwritten (base : List UInt8) (b : ℕ) {j : ℕ} (hj : j < 4096) :
    (J.overwritten base b)[j]? = some (if J.Inside b j
      then J.buf.getD ((b : ℤ) * 4096 + j - J.offset).toNat 0 else base.getD j 0) := by
  rw [overwritten, List.getElem?_map, List.getElem?_range hj, Option.map_some]

variable {J} in
/-- Outside the range written the base is left. -/
theorem getElem?_overwritten_outside {base : List UInt8} {b j : ℕ} (hj : j < 4096)
    (hout : ¬J.Inside b j) : (J.overwritten base b)[j]? = some (base.getD j 0) := by
  rw [J.getElem?_overwritten base b hj, if_neg hout]

/-- The bytes written do not depend on the base. -/
theorem overwritten_congr {base base' : List UInt8} {b : ℕ}
    (h : ∀ j < 4096, ¬J.Inside b j → base.getD j 0 = base'.getD j 0) :
    J.overwritten base b = J.overwritten base' b := by
  refine List.map_congr_left fun j hj => ?_
  rw [List.mem_range] at hj
  split_ifs with hin
  · rfl
  · exact h j hj hin

theorem keyAt_first (b : ℕ) : J.keyAt J.first b = J.oldKey b := if_neg (by omega)

theorem keyAt_of_ge {m b : ℕ} (h : m ≤ b) : J.keyAt m b = J.oldKey b := if_neg (by omega)

/-- One more block is written. -/
theorem keyAt_succ {m : ℕ} (h : J.first ≤ m) (b : ℕ) :
    J.keyAt (m + 1) b = if b = m then J.newKey m else J.keyAt m b := by
  by_cases hb : b = m
  · rw [if_pos hb, keyAt, if_pos (by omega), hb]
  · rw [if_neg hb, keyAt, keyAt]
    exact if_congr (by omega) rfl rfl

/-- Behind the entries nothing changes. -/
theorem keyAt_fresh {m b : ℕ} (h : J.fresh ≤ m) (hb : b < J.live) :
    J.keyAt m b = J.keyAt J.fresh b := by
  have : J.live ≤ J.fresh := le_max_right _ _
  exact if_congr (by omega) rfl rfl

/-! ## References -/

theorem countAt_first (k : Key) : J.countAt J.first k = entryCount J.f J.live k := by
  unfold countAt entryCount
  have hkey : ∀ b < J.live, (J.keyAt J.first b = k ↔ entryBytes J.f b = k.val) := by
    intro b hb
    rw [J.keyAt_first, oldKey, Subtype.ext_iff, ((J.hasEntry_iff_live).2 hb).entryKey_val]
  exact le_antisymm (Nat.count_mono_left fun b hb => (hkey b hb).1)
    (Nat.count_mono_left fun b hb => (hkey b hb).2)

/-- A block with an entry is written. -/
theorem countAt_succ {m : ℕ} (h : J.first ≤ m) (hm : m < J.live) (k : Key) :
    J.countAt (m + 1) k + (if J.oldKey m = k then 1 else 0) =
      J.countAt m k + if J.newKey m = k then 1 else 0 := by
  have hself : J.keyAt (m + 1) m = J.newKey m := by rw [J.keyAt_succ h, if_pos rfl]
  have hcount := count_replace (fun b => J.keyAt m b = k) (fun b => J.keyAt (m + 1) b = k)
    (fun b hb => by rw [J.keyAt_succ h, if_neg hb]) hm
  rwa [hself, J.keyAt_of_ge le_rfl] at hcount

variable {J}

theorem Ready.length_oldBlock {S : Set (List UInt8)} (h : J.Ready S) (b : ℕ) :
    (J.oldBlock b).length = 4096 := by
  unfold oldBlock
  split_ifs
  · cases hc : J.chunk (J.oldKey b) with
    | none => exact length_zeroBlock
    | some d => exact h.length _ d hc
  · exact length_zeroBlock

theorem Ready.refsAt_add {S : Set (List UInt8)} (h : J.Ready S) (m : ℕ) (k : Key) :
    J.refsAt m k + J.countAt J.first k = J.refs k + J.countAt m k := by
  have := h.held k
  rw [← J.countAt_first] at this
  unfold refsAt
  omega

/-- The references cover the entries. -/
theorem Ready.countAt_le {S : Set (List UInt8)} (h : J.Ready S) (m : ℕ) (k : Key) :
    J.countAt m k ≤ J.refsAt m k := by
  have := h.held k
  rw [← J.countAt_first] at this
  unfold refsAt
  omega

theorem Ready.refsAt_first {S : Set (List UInt8)} (h : J.Ready S) (k : Key) :
    J.refsAt J.first k = J.refs k := by
  have := h.refsAt_add J.first k
  omega

theorem Ready.refsAt_succ {S : Set (List UInt8)} (h : J.Ready S) {m : ℕ} (hm : J.first ≤ m)
    (hlive : m < J.live) (k : Key) :
    J.refsAt (m + 1) k + (if J.oldKey m = k then 1 else 0) =
      J.refsAt m k + if J.newKey m = k then 1 else 0 := by
  have h₁ := h.refsAt_add m k
  have h₂ := h.refsAt_add (m + 1) k
  have h₃ := J.countAt_succ hm hlive k
  omega

theorem countAt_pos {m b : ℕ} (hb : b < J.live) : 0 < J.countAt m (J.keyAt m b) := by
  rw [countAt, Nat.count_eq_card_filter_range, Finset.card_pos]
  exact ⟨b, by simp [hb]⟩

/-- Two blocks with one key. -/
theorem one_lt_countAt {m b b' : ℕ} (hb : b < J.live) (hb' : b' < J.live) (hne : b ≠ b')
    (h : J.keyAt m b' = J.keyAt m b) : 1 < J.countAt m (J.keyAt m b) := by
  rw [countAt, Nat.count_eq_card_filter_range, Finset.one_lt_card]
  exact ⟨b, by simp [hb], b', by simp [hb', h], hne⟩

/-! ## The data of a block -/

/-- The data of an iteration, where `chunk` is what `block_read` yields of the old block. -/
theorem blockData_eq_overwritten {st : BlockStore B} (J : WriteJob) {s : B} {key : Key}
    {chunk : Option (List UInt8)} (hread : st.blockRead s key 4096 0 = chunk)
    (hchunk : ∀ d, chunk = some d → d.length = 4096) {i : ℤ} (h₀ : 0 ≤ J.offset)
    (hle : J.offset ≤ i) (hlt : i < J.offset + J.buf.length) (hat : AtBlock J.offset i) :
    Client.blockData st s key J.buf J.offset i (Client.chunkLen (J.offset + J.buf.length) i) =
      J.overwritten (chunk.getD zeroBlock) (blockIndex i) := by
  have hdata : baseData st s key (Client.chunkLen (J.offset + J.buf.length) i) =
      if Client.chunkLen (J.offset + J.buf.length) i ≠ 4096 then chunk.getD zeroBlock
      else zeroBlock := by
    rw [baseData, hread]
    split_ifs with hlen
    · cases chunk with
      | none => rfl
      | some d =>
        have hd := hchunk d rfl
        rw [Option.map_some, Option.getD_some, Option.getD_some, overlay_of_length_le]
        rw [List.length_replicate, hd]
    · rfl
  have hlen : (chunk.getD zeroBlock).length = 4096 := by
    cases chunk with
    | none => exact length_zeroBlock
    | some d => exact hchunk d rfl
  have hbase : (baseData st s key (Client.chunkLen (J.offset + J.buf.length) i)).length = 4096 := by
    rw [hdata]
    split_ifs
    · exact hlen
    · exact length_zeroBlock
  refine List.ext_getElem? fun j => ?_
  by_cases hj : j < 4096
  · rw [J.getElem?_overwritten _ _ hj]
    have hbyte := getElem?_blockData hbase hle hlt h₀ hat hj
    rw [hbyte]
    have hiff : J.Inside (blockIndex i) j ↔ J.offset ≤ (blockIndex i : ℤ) * 4096 + j ∧
        (blockIndex i : ℤ) * 4096 + j < J.offset + J.buf.length := Iff.rfl
    rw [← if_congr hiff rfl rfl]
    by_cases hin : J.Inside (blockIndex i) j
    · have := hiff.1 hin
      rw [if_pos hin, if_pos hin, List.getD_eq_getElem?_getD,
        List.getElem?_eq_getElem (by omega), Option.getD_some]
    · -- a block that is not all written has been read
      have hpart : Client.chunkLen (J.offset + J.buf.length) i ≠ 4096 := by
        intro hfull
        refine hin (hiff.2 ?_)
        unfold Client.chunkLen at hfull
        unfold blockIndex
        omega
      rw [if_neg hin, if_neg hin, hdata, if_pos hpart, List.getD_eq_getElem?_getD,
        List.getElem?_eq_getElem (by omega), Option.getD_some]
  · rw [List.getElem?_eq_none (by rw [length_blockData hbase hle]; omega),
      List.getElem?_eq_none (by rw [J.length_overwritten]; omega)]

end WriteJob

end Agilefs
