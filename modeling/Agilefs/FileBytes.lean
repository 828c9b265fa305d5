import Agilefs.FileSys
import Agilefs.LastingRead

/-!
# The bytes a metafile describes

`Describes` : a metafile has an entry for each block of a file, and the chunks they name hold the
bytes of the file. A store that keeps its chunks keeps this (`Describes.mono`); a shorter file is
described as well (`Describes.take`), and `WriteJob.Stored.describes` says what a write makes of the
bytes. `readLoop_bytes` : the loop of `fuse_read` fetches the bytes of a file, over any store that
reads them of the blocks.
-/

namespace Agilefs

open CInt Posix Function ByteFile

variable {B P : Type*}

/-- With the chunks `chunk` the metafile `f` describes a file of the bytes `b`. -/
structure Describes (chunk : Key → Option (List UInt8)) (f b : ByteFile) : Prop where
  whole : Whole f
  named : ∀ i, HasEntry f i → entryKey f i = Key.zero ∨ (chunk (entryKey f i)).isSome
  covered : ∀ i < blocks b.length, HasEntry f i ∧ (chunk (entryKey f i)).isSome
  bytes : ∀ p < b.length, b[p]? = some (byteAt chunk f p)
  lt : b.length < 2 ^ 63

section Describes

variable {chunk chunk' : Key → Option (List UInt8)} {f f' b : ByteFile}

/-- An empty file, with room for the header. -/
theorem describes_nil (hf : f.length ≤ 16) : Describes chunk f [] := by
  have hnil : ∀ i, entryBytes f i = [] := fun i => entryBytes_eq_nil (by omega)
  have hnone : ∀ i, ¬HasEntry f i := fun i hi => hi.ne_nil (hnil i)
  refine ⟨fun i => Or.inr (hnil i), fun i hi => (hnone i hi).elim, fun i hi => ?_,
    fun p hp => ?_, by simp⟩
  · rw [lt_blocks_iff, List.length_nil] at hi
    omega
  · exact absurd hp (Nat.not_lt_zero p)

/-- Byte `p` is in a block of the file. -/
theorem lt_blocks_of_lt {p : ℕ} (hp : p < b.length) : p / 4096 < blocks b.length := by
  rw [lt_blocks_iff]
  omega

/-- More chunks. -/
theorem Describes.mono (h : Describes chunk f b)
    (hkept : ∀ k d, chunk k = some d → chunk' k = some d) : Describes chunk' f b := by
  have hsome : ∀ k, (chunk k).isSome → (chunk' k).isSome := by
    intro k hk
    obtain ⟨d, hd⟩ := Option.isSome_iff_exists.1 hk
    rw [hkept k d hd]
    rfl
  refine ⟨h.whole, fun i hi => (h.named i hi).imp_right (hsome _), fun i hi =>
    ⟨(h.covered i hi).1, hsome _ (h.covered i hi).2⟩, fun p hp => ?_, h.lt⟩
  obtain ⟨hentry, hchunk⟩ := h.covered _ (lt_blocks_of_lt hp)
  obtain ⟨d, hd⟩ := Option.isSome_iff_exists.1 hchunk
  rw [h.bytes p hp, byteAt, byteAt, if_pos hentry, if_pos hentry, hd, hkept _ _ hd]

/-- Only the entries matter. -/
theorem Describes.congr (h : Describes chunk f b)
    (hentries : ∀ i, entryBytes f' i = entryBytes f i) : Describes chunk f' b := by
  refine ⟨h.whole.congr hentries, ?_, ?_, fun p hp => ?_, h.lt⟩
  · simp only [HasEntry, entryKey, hentries]
    exact h.named
  · simp only [HasEntry, entryKey, hentries]
    exact h.covered
  · rw [byteAt_congr hentries, h.bytes p hp]

/-- The front of the file. -/
theorem Describes.take (h : Describes chunk f b) (n : ℕ) : Describes chunk f (b.take n) := by
  have hlen : (b.take n).length ≤ b.length := List.length_take_le' n b
  refine ⟨h.whole, h.named, fun i hi => h.covered i ?_, fun p hp => ?_, hlen.trans_lt h.lt⟩
  · rw [lt_blocks_iff] at hi ⊢
    omega
  · have hpn : p < n := (List.length_take ▸ hp).trans_le (min_le_left _ _)
    rw [List.getElem?_take_of_lt hpn, h.bytes p (by omega)]

/-- What a read of block `i` yields in the file. -/
theorem Describes.byte_eq (h : Describes chunk f b) {p : ℕ} (hp : p < b.length) {d : List UInt8}
    (hd : chunk (entryKey f (p / 4096)) = some d) (hlen : d.length = 4096) :
    d[p % 4096]? = b[p]? := by
  have hentry := (h.covered _ (lt_blocks_of_lt hp)).1
  have hmod : p % 4096 < d.length := by omega
  rw [h.bytes p hp, byteAt, if_pos hentry, hd, Option.getD_some, List.getD_eq_getElem?_getD,
    List.getElem?_eq_getElem hmod, Option.getD_some]

end Describes

/-! ## A write -/

namespace WriteJob

variable {J : WriteJob} {S : Set (List UInt8)} {v : StoreView B} {n : ℕ} {b : ByteFile}
  {w : Client.WriteState (B × List StoreCall) P}

/-- A byte of a block that is put, if the file begins before the write does. -/
theorem getD_dataAt (hb : Describes J.chunk J.f b) {p : ℕ}
    (hout : ¬(J.offset ≤ p ∧ (p : ℤ) < J.stop) → p < b.length) :
    (J.dataAt (p / 4096)).getD (p % 4096) 0 =
      if J.offset ≤ p ∧ (p : ℤ) < J.stop then J.buf.getD (p - J.offset).toNat 0
      else byteAt J.chunk J.f p := by
  have hplace : ((p / 4096 : ℕ) : ℤ) * 4096 + (p % 4096 : ℕ) = p := by omega
  have hinside : J.Inside (p / 4096) (p % 4096) ↔ J.offset ≤ p ∧ (p : ℤ) < J.stop := by
    rw [Inside, hplace]
  rw [dataAt, List.getD_eq_getElem?_getD, J.getElem?_overwritten _ _ (by omega), Option.getD_some,
    hplace]
  split_ifs with h₁ h₂ h₂
  · rfl
  · exact absurd (hinside.1 h₁) h₂
  · exact absurd (hinside.2 h₂) h₁
  · have hlive := J.hasEntry_iff_live.1 (hb.covered _ (lt_blocks_of_lt (hout h₂))).1
    rw [baseAt, if_pos hlive, J.getD_oldBlock]

/-- The bytes after a write that begins inside the file or at its end. -/
theorem Stored.getElem?_pwrite (hJ : J.Sparse S)
    (h : J.Stored S v n w (doneTo J.offset J.stop)) (hb : Describes J.chunk J.f b)
    (h₀ : 0 ≤ J.offset) (hle : J.offset ≤ b.length) {p : ℕ}
    (hp : p < (b.pwrite J.buf J.offset.toNat).length) :
    (b.pwrite J.buf J.offset.toNat)[p]? =
      some (byteAt (v.chunk w.store.1) (w.os.inodes n) p) := by
  have hstop : J.stop = J.offset + J.buf.length := rfl
  rw [h.byteAt_eq hJ p]
  by_cases hbuf : J.buf = []
  · -- nothing is written
    have hdone : doneTo J.offset J.stop = J.first := by
      rw [doneTo, hstop, hbuf, if_pos (by simp)]
      rfl
    rw [hbuf, pwrite_nil] at hp ⊢
    rw [hdone, if_neg (by omega), hb.bytes p hp]
  · rw [length_pwrite b hbuf] at hp
    have hmem : J.offset ≤ p → (p : ℤ) < J.stop →
        J.first ≤ p / 4096 ∧ p / 4096 < doneTo J.offset J.stop := by
      intro h₁ h₂
      rw [doneTo, if_neg (by omega)]
      unfold first blockIndex blocks
      omega
    rw [ByteFile.getElem?_pwrite b hbuf]
    by_cases hin : J.offset ≤ p ∧ (p : ℤ) < J.stop
    · have hidx : (p - J.offset).toNat = p - J.offset.toNat := by omega
      rw [if_pos (hmem hin.1 hin.2), getD_dataAt hb fun hout => (hout hin).elim, if_pos hin, hidx,
        if_neg (by omega), if_pos (by omega), List.getD_eq_getElem?_getD,
        List.getElem?_eq_getElem (by omega), Option.getD_some]
    · have hlt : p < b.length := by omega
      have hold : (if p < J.offset.toNat then some ((b[p]?).getD 0)
          else if p < J.offset.toNat + J.buf.length then J.buf[p - J.offset.toNat]? else b[p]?) =
          some (byteAt J.chunk J.f p) := by
        rw [hb.bytes p hlt]
        split_ifs with h₁ h₂
        · rfl
        · omega
        · rfl
      rw [hold]
      split_ifs
      · rw [getD_dataAt hb fun _ => hlt, if_neg hin]
      · rfl

/-- What a write makes of the file. -/
theorem Stored.describes (hJ : J.Sparse S) (h : J.Stored S v n w (doneTo J.offset J.stop))
    (hb : Describes J.chunk J.f b) (h₀ : 0 ≤ J.offset) (hle : J.offset ≤ b.length)
    (hmax : J.stop < 2 ^ 63) :
    Describes (v.chunk w.store.1) (w.os.inodes n) (b.pwrite J.buf J.offset.toNat) := by
  have hstop : J.stop = J.offset + J.buf.length := rfl
  have hlt := hb.lt
  have hlen : (b.pwrite J.buf J.offset.toNat).length = b.length ∨
      J.buf ≠ [] ∧ (b.pwrite J.buf J.offset.toNat).length =
        max b.length (J.offset.toNat + J.buf.length) := by
    by_cases hbuf : J.buf = []
    · exact Or.inl (by rw [hbuf, pwrite_nil])
    · exact Or.inr ⟨hbuf, length_pwrite b hbuf _⟩
  refine ⟨h.whole, fun i hi => h.named hJ hi, fun i hi => ?_,
    fun p hp => h.getElem?_pwrite hJ hb h₀ hle hp, by omega⟩
  rw [lt_blocks_iff] at hi
  rcases h.entry_cases i with ⟨hwritten, hentry, hkey⟩ | ⟨hout, hcase⟩
  · refine ⟨hentry, ?_⟩
    rw [hkey, h.stored i hwritten.1 hwritten.2]
    rfl
  · -- a block that is not written was there before
    have hold : i < blocks b.length := by
      rw [lt_blocks_iff]
      by_contra hge
      refine hout ?_
      rw [doneTo, if_neg (by omega)]
      unfold first blockIndex blocks
      omega
    obtain ⟨hentry, hchunk⟩ := hb.covered i hold
    rcases hcase with ⟨-, hentry', hkey⟩ | ⟨hnone, -⟩
    · obtain ⟨d, hd⟩ := Option.isSome_iff_exists.1 hchunk
      rw [hkey, h.kept _ _ hd]
      exact ⟨hentry', rfl⟩
    · exact absurd hentry hnone

end WriteJob

/-! ## A read -/

/-- A block is asked for no more than its part of the range. -/
theorem asked_eq_chunkLen {offset stop i : ℤ}
    (hfit : offset % 4096 = 0 ∨ offset % 4096 + (stop - offset) ≤ 4096) (hat : AtBlock offset i) :
    asked stop i = Client.chunkLen stop i := by
  unfold asked Client.chunkLen
  rcases hat with h | h <;> omega

section Read

variable {st : BlockStore B} {s : B} {os : Os P} {fd : ℤ} {n size : ℕ} {offset : ℤ} {junk : Key}
  {b : ByteFile}

/-- A read of each block of the range yields its bytes in the file `b`. -/
def ReadsBlocks (st : BlockStore B) (s : B) (f b : ByteFile) (offset stop : ℤ) : Prop :=
  ∀ i, offset ≤ i → i < stop → AtBlock offset i → HasEntry f (blockIndex i) ∧
    st.blockRead s (entryKey f (blockIndex i)) (asked stop i) (i % 4096) =
      some (b.pread (Client.chunkLen stop i) i.toNat)

/-- Over a lasting store the blocks of a file are read. -/
theorem Describes.readsBlocks {v : StoreView B} (hst : st.Lasting v) {f : ByteFile}
    (h : Describes (v.chunk s) f b) {stop : ℤ} (h₀ : 0 ≤ offset) (hend : stop ≤ b.length)
    (hfit : offset % 4096 = 0 ∨ offset % 4096 + (stop - offset) ≤ 4096) :
    ReadsBlocks st s f b offset stop := by
  intro i hle hlt hat
  have hi : blockIndex i = i.toNat / 4096 := rfl
  obtain ⟨hentry, hchunk⟩ := h.covered (blockIndex i) (lt_blocks_of_lt (by omega))
  refine ⟨hentry, ?_⟩
  obtain ⟨d, hd⟩ := Option.isSome_iff_exists.1 hchunk
  have hlen := hst.length s _ d hd
  have hcast : i % 4096 = ((i.toNat % 4096 : ℕ) : ℤ) := by omega
  have hpart : Client.chunkLen stop i ≤ 4096 - i.toNat % 4096 ∧
      i.toNat + Client.chunkLen stop i ≤ stop.toNat := by
    unfold Client.chunkLen
    omega
  obtain ⟨bytes, hread, hmin, hmax, hbytes⟩ :=
    hst.present s _ d (asked stop i) (i.toNat % 4096) hd (by omega)
  rw [asked_eq_chunkLen hfit hat] at hread hmin hmax hbytes ⊢
  rw [← hcast] at hread
  rw [hread, Option.some_inj]
  refine List.ext_getElem? fun j => ?_
  rw [getElem?_pread]
  split_ifs with hj
  · have hdiv : (i.toNat + j) / 4096 = blockIndex i := by omega
    have hmod : (i.toNat + j) % 4096 = i.toNat % 4096 + j := by omega
    rw [hbytes j (by omega), ← hmod]
    exact h.byte_eq (by omega) (by rw [hdiv, hd]) hlen
  · exact List.getElem?_eq_none (by omega)

namespace Client

/-- The state of a read that has come to byte `i`. -/
structure Fetched (b : ByteFile) (offset : ℤ) (size : ℕ) (r : ReadState Unit) : Prop where
  ok : r.ok = true
  length : r.buf.length = size
  ge : offset ≤ r.i
  le : r.i ≤ offset + size
  atBlock : r.i < offset + size → AtBlock offset r.i
  bytes : ∀ p : ℕ, offset + p < r.i → r.buf[p]? = b[offset.toNat + p]?
  count : r.rdcount = int32 (r.i - offset)

/-- One iteration. -/
theorem Fetched.step (hino : os.ino fd = some n) (h₀ : 0 ≤ offset) (h₁ : offset + size < 2 ^ 63)
    (hend : offset + size ≤ b.length)
    (hread : ReadsBlocks st s (os.inodes n) b offset (offset + size)) {r : ReadState Unit}
    (h : Fetched b offset size r) (hlt : r.i < offset + size) :
    Fetched b offset size (readBody noCache st s os {} fd size offset r) ∧
      (readBody noCache st s os {} fd size offset r).i = r.i + chunkLen (offset + size) r.i := by
  have hge := h.ge
  obtain ⟨hentry, hblock⟩ := hread r.i hge hlt (h.atBlock hlt)
  have hpos := chunkLen_pos hlt
  have hle := add_chunkLen_le hlt.le
  have hd : (b.pread (chunkLen (offset + size) r.i) r.i.toNat).length =
      chunkLen (offset + size) r.i := by
    rw [length_pread]
    omega
  have hne : b.pread (chunkLen (offset + size) r.i) r.i.toNat ≠ [] :=
    List.ne_nil_of_length_pos (by omega)
  rw [readBody_noCache hino h₀ h₁ hge hlt (hentry.load_eq _) hblock]
  refine ⟨⟨rfl, ?_, by simp only; omega, hle, atBlock_next hge hlt, fun p hp => ?_, ?_⟩, rfl⟩
  · simp only
    rw [length_pwrite_of_le (by rw [h.length]; omega), h.length]
  · simp only at hp ⊢
    rw [getElem?_pwrite _ hne, hd]
    split_ifs with hp₁ hp₂
    · rw [h.bytes p (by omega), List.getElem?_eq_getElem (by omega), Option.getD_some]
    · rw [getElem?_pread, if_pos (by omega)]
      congr 1
      omega
    · omega
  · simp only
    rw [h.count, int32_add, hd]
    congr 1
    omega

/-- The loop of `fuse_read`, of a range inside the file. -/
theorem readLoop_bytes (hino : os.ino fd = some n) (h₀ : 0 ≤ offset)
    (h₁ : offset + size < 2 ^ 63) (hend : offset + size ≤ b.length)
    (hread : ReadsBlocks st s (os.inodes n) b offset (offset + size)) {buf : List UInt8}
    (hbuf : buf.length = size) (junk : Key) :
    ∃ r, readLoop noCache st s os {} fd size offset (offset + size) (size + 1)
        ⟨(), junk, buf, 0, offset, true⟩ = some r ∧ r.ok = true ∧
      r.buf = b.pread size offset.toNat ∧ r.rdcount = int32 size := by
  have hstart : Fetched b offset size ⟨(), junk, buf, 0, offset, true⟩ := by
    refine ⟨rfl, hbuf, le_rfl, by simp, fun _ => Or.inl rfl, fun p hp => ?_, ?_⟩
    · simp only at hp
      omega
    · simp only [sub_self]
      rfl
  have hbody : ∀ r : ReadState Unit, Fetched b offset size r →
      (r.ok && decide (r.i < offset + size)) = true →
      ∃ r', some (readBody noCache st s os {} fd size offset r) = some r' ∧
        Fetched b offset size r' ∧ (offset + size - r'.i).toNat < (offset + size - r.i).toNat := by
    intro r hr hcond
    rw [Bool.and_eq_true, decide_eq_true_eq] at hcond
    obtain ⟨hr', hi'⟩ := hr.step hino h₀ h₁ hend hread hcond.2
    have := chunkLen_pos hcond.2
    exact ⟨_, rfl, hr', by omega⟩
  obtain ⟨r, hr, hf, hcond⟩ := Loop.run_spec (n := size + 1) hbody hstart (by simp only; omega)
  rw [hf.ok, Bool.true_and, decide_eq_false_iff_not] at hcond
  have hlast : r.i = offset + size := le_antisymm hf.le (not_lt.1 hcond)
  refine ⟨r, hr, hf.ok, List.ext_getElem? fun p => ?_, ?_⟩
  · have hlen := hf.length
    rw [getElem?_pread]
    split_ifs with hp
    · exact hf.bytes p (by omega)
    · exact List.getElem?_eq_none (by omega)
  · rw [hf.count, hlast]
    congr 1
    omega

/-- `fuse_read` of a range inside the file. -/
theorem fuseRead_bytes {c : Client B P} {fh : ℕ} (hctx : c.contexts fh = some ⟨fd, (b.length : ℤ)⟩)
    (hino : c.os.ino fd = some n) (hmax : b.length < 2 ^ 63) (h₀ : 0 ≤ offset)
    {buf : List UInt8} (hend : offset + buf.length ≤ b.length) (hsize : buf.length < 2 ^ 31)
    (hread : ReadsBlocks st c.store (c.os.inodes n) b offset (offset + buf.length)) (junk : Key) :
    c.fuseRead noCache st () {} fh buf offset junk =
      some ((), b.pread buf.length offset.toNat, some (buf.length : ℤ)) := by
  obtain ⟨r, hr, hok, hbytes, hcount⟩ :=
    readLoop_bytes hino h₀ (by omega) hend hread rfl junk
  have hfuel : (offset + buf.length - offset).toNat = buf.length := by omega
  rw [int32_of_range (by omega) (by omega)] at hcount
  simp only [fuseRead, hctx, Option.bind_some, readStop_of_le h₀ hend (by omega), hfuel, hr,
    Option.map_some, hok, if_true, hbytes, hcount]

end Client

end Read

end Agilefs
