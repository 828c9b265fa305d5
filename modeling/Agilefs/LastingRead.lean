import Agilefs.LastingWrite
import Agilefs.ReadBytes

/-!
# Reads over a lasting store

`fuse_read` of a range inside a file, with holes. A block without an entry is looked up under the
key left from the block before (`keyRead`); a block whose key is not in the store leaves the buffer
as it is and counts `-1`. `readLoop_zeros` : if each block of the range is looked up under the key
of a block in the store (`Backed`), then where the file is zero so is the buffer, and the return
value is the sum of what the blocks should count (`countOf`).
-/

namespace Agilefs

open CInt Posix Function ByteFile

variable {B P : Type*}

/-! ## Blocks in a range -/

/-- The first byte of block `b` in a range from `offset` on. -/
def partStart (offset : ℤ) (b : ℕ) : ℤ := max offset (b * 4096)

theorem partStart_blockIndex {offset i : ℤ} (h₀ : 0 ≤ offset) (hat : AtBlock offset i) :
    partStart offset (blockIndex i) = i := by
  unfold partStart blockIndex
  rcases hat with h | h <;> omega

/-- The key under which a read from block `first` on looks up block `b` : without an entry, the
last one of the metafile. -/
def keyRead (f : ByteFile) (junk : Key) (first b : ℕ) : Key :=
  if HasEntry f b then entryKey f b
  else if HasEntry f first then entryKey f ((f.length - 16) / 16 - 1) else junk

/-- The key in `hash_key` after block `m`, with the one from the block before. -/
theorem Whole.load_keyRead {f : ByteFile} (hf : Whole f) {junk : Key} {first m : ℕ}
    (hle : first ≤ m) :
    (if first < m then keyRead f junk first (m - 1) else junk).load (entryBytes f m) =
      keyRead f junk first m := by
  by_cases hm : HasEntry f m
  · rw [hm.load_eq, keyRead, if_pos hm]
  have hself : keyRead f junk first m =
      if HasEntry f first then entryKey f ((f.length - 16) / 16 - 1) else junk := if_neg hm
  rw [(hf m).resolve_left hm, Key.load_nil, hself]
  rw [hasEntry_iff] at hm
  split_ifs with hlt hfirst hfirst
  · rw [keyRead]
    split_ifs with hprev
    · rw [hasEntry_iff] at hprev
      have hlast : m - 1 = (f.length - 16) / 16 - 1 := by omega
      rw [← hlast]
    · rfl
  · rw [keyRead, if_neg hfirst, if_neg]
    rw [hasEntry_iff] at hfirst ⊢
    omega
  · rw [hasEntry_iff] at hfirst
    omega
  · rfl

/-- What `block_read` returns for the key in the block of byte `i`, in a read up to `stop`. -/
def counted (st : BlockStore B) (s : B) (key : Key) (stop i : ℤ) : ℤ :=
  ((st.blockRead s key (asked stop i) (i % 4096)).map fun d => (d.length : ℤ)).getD (-1)

/-- What block `b` should count in a read from `offset` to `stop` : its part of the range, if it has
no chunk in the store. -/
def countOf (st : BlockStore B) (v : StoreView B) (s : B) (f : ByteFile) (offset stop : ℤ)
    (b : ℕ) : ℤ :=
  if HasEntry f b ∧ (v.chunk s (entryKey f b)).isSome then
    counted st s (entryKey f b) stop (partStart offset b)
  else Client.chunkLen stop (partStart offset b)

/-- Each block of the range is looked up under the key of a chunk. If it has no entry, this chunk
is zero in the range, and not asked for more bytes than the block has there. -/
def Backed (chunk : Key → Option (List UInt8)) (f : ByteFile) (junk : Key) (offset stop : ℤ) :
    Prop :=
  ∀ b ∈ touched offset stop, ∃ d, chunk (keyRead f junk (blockIndex offset) b) = some d ∧
    (HasEntry f b ∨
      (∀ j : ℕ, j < 4096 → offset ≤ (b : ℤ) * 4096 + j → (b : ℤ) * 4096 + j < stop →
        d.getD j 0 = 0) ∧
      asked stop (partStart offset b) = Client.chunkLen stop (partStart offset b))

/-! ## The loop -/

section Loop

variable {st : BlockStore B} {v : StoreView B} {s : B} {os : Os P} {fd : ℤ} {n size : ℕ}
  {offset : ℤ} {junk : Key} {written : ℕ → Bool}

/-- The state of a read that has come to byte `i` : zeros in the buffer at the places that are not
`written`, and the sum of the counts of the blocks before. -/
structure ReadPast (st : BlockStore B) (v : StoreView B) (s : B) (f : ByteFile) (junk : Key)
    (written : ℕ → Bool) (offset stop : ℤ) (size : ℕ) (r : ReadState Unit) : Prop where
  ok : r.ok = true
  length : r.buf.length = size
  ge : offset ≤ r.i
  le : r.i ≤ stop
  atBlock : r.i < stop → AtBlock offset r.i
  hashKey : r.i < stop → r.hashKey =
    if blockIndex offset < blockIndex r.i then
      keyRead f junk (blockIndex offset) (blockIndex r.i - 1) else junk
  zero : ∀ p : ℕ, offset + p < r.i → written (offset.toNat + p) = false → r.buf[p]? = some 0
  count : r.rdcount = int32 ((touched offset r.i).map (countOf st v s f offset stop)).sum

/-- What is read of a block of the range. -/
theorem Backed.blockRead_spec (hst : st.Lasting v) {f : ByteFile} {stop : ℤ}
    (hback : Backed (v.chunk s) f junk offset stop)
    (hzero : ∀ p : ℕ, (p : ℤ) < stop → written p = false → byteAt (v.chunk s) f p = 0)
    (h₀ : 0 ≤ offset) {i : ℤ} (hle : offset ≤ i) (hlt : i < stop) (hat : AtBlock offset i) :
    ∃ d, st.blockRead s (keyRead f junk (blockIndex offset) (blockIndex i)) (asked stop i)
        (i % 4096) = some d ∧
      Client.chunkLen stop i ≤ d.length ∧ d.length ≤ asked stop i ∧
      (d.length : ℤ) = countOf st v s f offset stop (blockIndex i) ∧
      ∀ j < Client.chunkLen stop i, written (i.toNat + j) = false → d[j]? = some 0 := by
  have hmem : blockIndex i ∈ touched offset stop := by
    rw [mem_touched h₀]
    unfold blockIndex
    omega
  have hstart := partStart_blockIndex h₀ hat
  obtain ⟨chunk, hchunk, hcase⟩ := hback _ hmem
  rw [hstart] at hcase
  have hlen := hst.length s _ chunk hchunk
  have hcast : i % 4096 = (((i % 4096).toNat : ℕ) : ℤ) := by omega
  obtain ⟨d, hread, hmin, hmax, hbytes⟩ :=
    hst.present s _ chunk (asked stop i) (i % 4096).toNat hchunk (by omega)
  rw [← hcast] at hread
  have hpart : Client.chunkLen stop i = min (asked stop i) (4096 - (i % 4096).toNat) := by
    unfold Client.chunkLen asked
    omega
  rw [← hpart] at hmin hbytes
  refine ⟨d, hread, hmin, hmax, ?_, fun j hj hw => ?_⟩
  · rw [countOf, hstart]
    by_cases hentry : HasEntry f (blockIndex i)
    · rw [keyRead, if_pos hentry] at hread hchunk
      rw [if_pos ⟨hentry, by rw [hchunk]; rfl⟩, counted, hread, Option.map_some, Option.getD_some]
    · have hasked := (hcase.resolve_left hentry).2
      rw [if_neg fun h => hentry h.1]
      omega
  · have hplace : (i.toNat + j) / 4096 = blockIndex i ∧
        (i.toNat + j) % 4096 = (i % 4096).toNat + j := by
      unfold blockIndex
      omega
    have hj' : (i % 4096).toNat + j < chunk.length := by omega
    have hbyte : chunk.getD ((i % 4096).toNat + j) 0 = 0 := by
      by_cases hentry : HasEntry f (blockIndex i)
      · have h := hzero (i.toNat + j) (by unfold Client.chunkLen at hj; omega) hw
        rw [keyRead, if_pos hentry] at hchunk
        rwa [byteAt, hplace.1, hplace.2, if_pos hentry, hchunk, Option.getD_some] at h
      · refine (hcase.resolve_left hentry).1 ((i % 4096).toNat + j) (by omega) ?_ ?_
        · unfold blockIndex
          omega
        · unfold blockIndex
          unfold Client.chunkLen at hj
          omega
    rw [hbytes j hj, List.getElem?_eq_getElem hj', ← hbyte, List.getD_eq_getElem?_getD,
      List.getElem?_eq_getElem hj', Option.getD_some]

namespace Client

/-- One iteration. -/
theorem ReadPast.step (hst : st.Lasting v) (hino : os.ino fd = some n)
    (hwhole : Whole (os.inodes n)) (h₀ : 0 ≤ offset) (h₁ : offset + size < 2 ^ 63)
    (hback : Backed (v.chunk s) (os.inodes n) junk offset (offset + size))
    (hzero : ∀ p : ℕ, (p : ℤ) < offset + size → written p = false →
      byteAt (v.chunk s) (os.inodes n) p = 0) {r : ReadState Unit}
    (h : ReadPast st v s (os.inodes n) junk written offset (offset + size) size r)
    (hlt : r.i < offset + size) :
    ReadPast st v s (os.inodes n) junk written offset (offset + size) size
        (readBody noCache st s os {} fd size offset r) ∧
      (readBody noCache st s os {} fd size offset r).i = r.i + chunkLen (offset + size) r.i := by
  have hge := h.ge
  have hat := h.atBlock hlt
  have hfirst : blockIndex offset ≤ blockIndex r.i := by
    unfold blockIndex
    omega
  obtain ⟨d, hread, hmin, hmax, hcount, hbytes⟩ :=
    hback.blockRead_spec hst hzero h₀ hge hlt hat
  have hkey : r.hashKey.load (entryBytes (os.inodes n) (blockIndex r.i)) =
      keyRead (os.inodes n) junk (blockIndex offset) (blockIndex r.i) := by
    rw [h.hashKey hlt]
    exact hwhole.load_keyRead hfirst
  have hpos := chunkLen_pos hlt
  have hdne : d ≠ [] := List.ne_nil_of_length_pos (by omega)
  have hbuf : (ByteFile.pwrite r.buf d (r.i - offset).toNat).length = size := by
    unfold asked at hmax
    rw [length_pwrite_of_le (by rw [h.length]; omega), h.length]
  rw [readBody_noCache hino h₀ h₁ hge hlt hkey hread]
  refine ⟨⟨rfl, hbuf, by simp only; omega, add_chunkLen_le hlt.le, fun hlt' => ?_, fun hlt' => ?_,
    fun p hp hw => ?_, ?_⟩, rfl⟩
  · exact atBlock_next hge hlt hlt'
  · have hnext : blockIndex (r.i + chunkLen (offset + size) r.i) = blockIndex r.i + 1 := by
      simp only at hlt'
      unfold chunkLen at hlt' ⊢
      unfold blockIndex
      omega
    simp only
    rw [hnext, if_pos (by omega), Nat.add_sub_cancel]
  · -- the bytes before this block are kept
    simp only at hp ⊢
    rw [getElem?_pwrite _ hdne]
    split_ifs with hp₁ hp₂
    · rw [h.zero p (by omega) hw]
      rfl
    · have hplace : offset.toNat + p = r.i.toNat + (p - (r.i - offset).toNat) := by omega
      rw [hplace] at hw
      exact hbytes _ (by omega) hw
    · omega
  · simp only
    rw [h.count, int32_add, touched_next h₀ hat hlt, List.map_append, List.sum_append, hcount]
    simp

/-- Where the file is not written the buffer is zero, and every block counts what it should. -/
theorem readLoop_zeros (hst : st.Lasting v) (hino : os.ino fd = some n)
    (hwhole : Whole (os.inodes n)) (h₀ : 0 ≤ offset) (h₁ : offset + size < 2 ^ 63)
    (hback : Backed (v.chunk s) (os.inodes n) junk offset (offset + size))
    (hzero : ∀ p : ℕ, (p : ℤ) < offset + size → written p = false →
      byteAt (v.chunk s) (os.inodes n) p = 0) {buf : List UInt8} (hbuf : buf.length = size) :
    ∃ r, readLoop noCache st s os {} fd size offset (offset + size) (size + 1)
        ⟨(), junk, buf, 0, offset, true⟩ = some r ∧ r.ok = true ∧
      (∀ p < size, written (offset.toNat + p) = false → r.buf[p]? = some 0) ∧
      r.rdcount = int32 ((touched offset (offset + size)).map
        (countOf st v s (os.inodes n) offset (offset + size))).sum := by
  have hstart : ReadPast st v s (os.inodes n) junk written offset (offset + size) size
      ⟨(), junk, buf, 0, offset, true⟩ := by
    refine ⟨rfl, hbuf, le_rfl, by simp, fun _ => Or.inl rfl, fun _ => (if_neg (lt_irrefl _)).symm,
      fun p hp => ?_, ?_⟩
    · simp only at hp
      omega
    · simp only [touched_self]
      rfl
  have hbody : ∀ r : ReadState Unit,
      ReadPast st v s (os.inodes n) junk written offset (offset + size) size r →
      (r.ok && decide (r.i < offset + size)) = true →
      ∃ r', some (readBody noCache st s os {} fd size offset r) = some r' ∧
        ReadPast st v s (os.inodes n) junk written offset (offset + size) size r' ∧
        (offset + size - r'.i).toNat < (offset + size - r.i).toNat := by
    intro r hr hcond
    rw [Bool.and_eq_true, decide_eq_true_eq] at hcond
    obtain ⟨hr', hi'⟩ := ReadPast.step hst hino hwhole h₀ h₁ hback hzero hr hcond.2
    refine ⟨_, rfl, hr', ?_⟩
    have := chunkLen_pos hcond.2
    rw [hi']
    omega
  obtain ⟨r, hr, hpast, hcond⟩ := Loop.run_spec (n := size + 1) hbody hstart (by simp only; omega)
  rw [hpast.ok, Bool.true_and, decide_eq_false_iff_not] at hcond
  have hend : r.i = offset + size := le_antisymm hpast.le (not_lt.1 hcond)
  have hcount := hpast.count
  rw [hend] at hcount
  exact ⟨r, hr, hpast.ok, fun p hp => hpast.zero p (by omega), hcount⟩

end Client

end Loop

end Agilefs
