import Agilefs.FuseRead
import Agilefs.WriteFrame

/-!
# Reading the bytes of a file

`fuse_read` without the cache, over the chunk store. For each block it asks `block_read` for
`min 4096 (offset + size - i)` bytes from the place of byte `i` in the chunk on, however many
of these are in the block and below the size of the file. What it asks for too much are bytes of
whatever lies behind the chunk in its chunk file; the next iteration overwrites them in the
buffer, but they stay counted in `rdcount`.

`fuseRead_exact_iff` : the bytes are right in any case, and the return value is the number of
bytes of the file in the range if and only if it fits in an `int` and no block is asked for too
much, except one whose chunk is the last of its chunk file.
-/

namespace Agilefs

open CInt Posix Function ByteFile

variable {P Q : Type*}

/-! ## Stored blocks -/

/-- The record of `key` leads to the 4096 bytes from `o` on of a chunk file `F`. -/
def StoredAt (s : Store Key Q) (key : Key) (F : ByteFile) (o : ℕ) : Prop :=
  ∃ bd m, s.db key = some bd ∧ s.os.ino (s.cfi.fds bd.fdIndex.toNat) = some m ∧
    s.os.inodes m = F ∧ bd.offset = o ∧ o + 4096 ≤ F.length

/-- The chunk of `key` is there, and the last of its chunk file. -/
def LastChunk (s : Store Key Q) (key : Key) : Prop :=
  ∃ F o, StoredAt s key F o ∧ F.length = o + 4096

/-- Each of the first `n` blocks has an entry that names a chunk in the store. -/
def Filed (s : Store Key Q) (f : ByteFile) (n : ℕ) : Prop :=
  ∀ b < n, HasEntry f b ∧ ∃ F o, StoredAt s (entryKey f b) F o

/-- The chunk of `key`. -/
def Store.chunkOf (s : Store Key Q) (key : Key) : List UInt8 :=
  ((s.db key).map s.chunkAt).getD []

/-- Byte `p` of the file with the metafile `f`. -/
def fileByte (s : Store Key Q) (f : ByteFile) (p : ℕ) : UInt8 :=
  ((s.chunkOf (entryKey f (p / 4096)))[p % 4096]?).getD 0

section Stored

variable {s : Store Key Q} {key : Key} {F : ByteFile} {o : ℕ}

theorem StoredAt.unique (h : StoredAt s key F o) {F' : ByteFile} {o' : ℕ}
    (h' : StoredAt s key F' o') : F = F' ∧ o = o' := by
  obtain ⟨bd, m, hbd, hm, rfl, ho, -⟩ := h
  obtain ⟨bd', m', hbd', hm', rfl, ho', -⟩ := h'
  obtain rfl : bd = bd' := by simpa [hbd] using hbd'
  obtain rfl : m = m' := by simpa [hm] using hm'
  exact ⟨rfl, by omega⟩

theorem StoredAt.lastChunk_iff (h : StoredAt s key F o) :
    LastChunk s key ↔ F.length = o + 4096 := by
  constructor
  · rintro ⟨F', o', h', hlen⟩
    obtain ⟨rfl, rfl⟩ := h.unique h'
    exact hlen
  · exact fun hlen => ⟨F, o, h, hlen⟩

theorem StoredAt.blockRead_eq (h : StoredAt s key F o) (n a : ℕ) :
    s.blockRead {} key n a = some (F.pread n (o + a)) := by
  obtain ⟨bd, m, hbd, hm, rfl, ho, -⟩ := h
  have hcast : bd.offset + (a : ℤ) = ((o + a : ℕ) : ℤ) := by omega
  have hread := Os.pread_full hm n (o + a)
  simp only [Store.blockRead, dbGet_some hbd, hcast]
  rw [if_neg (by simp), hread]
  simp [Os.content, hm]

theorem StoredAt.chunkOf_eq (h : StoredAt s key F o) : s.chunkOf key = F.pread 4096 o := by
  obtain ⟨bd, m, hbd, hm, rfl, ho, -⟩ := h
  simp [Store.chunkOf, hbd, Store.chunkAt, Os.content, hm, ho]

theorem StoredAt.getElem?_eq (h : StoredAt s key F o) {j : ℕ} (hj : j < 4096) :
    F[o + j]? = some (((s.chunkOf key)[j]?).getD 0) := by
  have hlen : o + 4096 ≤ F.length := by
    obtain ⟨_, _, -, -, rfl, -, hlen⟩ := h
    exact hlen
  rw [h.chunkOf_eq, getElem?_pread, if_pos hj, List.getElem?_eq_getElem (by omega : o + j < _)]
  rfl

end Stored

/-! ## What one block yields -/

/-- The bytes `block_read` is asked for in the block of byte `i`, in a read up to `stop`. -/
def asked (stop i : ℤ) : ℕ := (min 4096 (stop - i)).toNat

/-- In a read up to `stop` of a file that ends at `limit` or behind : the block of byte `i` is
not asked for more than its part of the file, or the chunk file has no more. -/
def ExactAt (s : Store Key Q) (f : ByteFile) (stop limit i : ℤ) : Prop :=
  asked stop i = Client.chunkLen limit i ∨
    (Client.chunkLen limit i : ℤ) = 4096 - i % 4096 ∧ LastChunk s (entryKey f (blockIndex i))

/-- The bytes read in the block of byte `i`, in a read up to `stop` : its part of the file, and
no more if and only if `ExactAt`. -/
theorem blockRead_spec {s : Store Key Q} {f : ByteFile} {limit stop i : ℤ}
    (hfile : Filed s f (blocks limit)) (h₀ : 0 ≤ i) (hlt : i < limit) (hle : limit ≤ stop) :
    ∃ d, s.blockRead {} (entryKey f (blockIndex i)) (asked stop i) (i % 4096) = some d ∧
      Client.chunkLen limit i ≤ d.length ∧ d.length ≤ asked stop i ∧
      (d.length = Client.chunkLen limit i ↔ ExactAt s f stop limit i) ∧
      ∀ j < Client.chunkLen limit i, d[j]? = some (fileByte s f (i.toNat + j)) := by
  have hb : blockIndex i < blocks limit := by
    rw [lt_blocks_iff]
    unfold blockIndex
    omega
  obtain ⟨-, F, o, hat⟩ := hfile _ hb
  have hlen : o + 4096 ≤ F.length := by
    obtain ⟨_, _, -, -, rfl, -, hlen⟩ := hat
    exact hlen
  have hcast : i % 4096 = (((i % 4096).toNat : ℕ) : ℤ) := by omega
  refine ⟨F.pread (asked stop i) (o + (i % 4096).toNat), ?_, ?_, ?_, ?_, fun j hj => ?_⟩
  · rw [hcast, hat.blockRead_eq, ← hcast]
  · rw [length_pread]
    unfold asked Client.chunkLen
    omega
  · rw [length_pread]
    exact min_le_left _ _
  · rw [ExactAt, hat.lastChunk_iff, length_pread]
    unfold asked Client.chunkLen
    omega
  · have hj' : j < 4096 - (i % 4096).toNat ∧ j < asked stop i := by
      unfold asked
      unfold Client.chunkLen at hj
      omega
    have hindex : (i.toNat + j) / 4096 = blockIndex i := by
      unfold blockIndex
      omega
    have hmod : (i.toNat + j) % 4096 = (i % 4096).toNat + j := by omega
    rw [getElem?_pread, if_pos hj'.2, fileByte, hindex, hmod, add_assoc]
    exact hat.getElem?_eq (by omega)

/-! ## The loop -/

section Loop

variable {whd : WriteHashDb Key} {s : Store Key Q} {os : Os P} {fd : ℤ} {n size : ℕ}
  {offset limit : ℤ}

/-- The number of bytes of a file of size `stSize` in a read of `size` bytes. -/
def inFile (stSize offset : ℤ) (size : ℕ) : ℤ := min size (max 0 (stSize - offset))

/-- The state of a read that has come to byte `i` : the bytes so far are those of the file, and
`rdcount` is their number and `x` more. -/
structure ReadTo (s : Store Key Q) (f : ByteFile) (size : ℕ) (offset stop limit : ℤ)
    (r : ReadState Unit) (x : ℤ) : Prop where
  ok : r.ok = true
  length : r.buf.length = size
  ge : offset ≤ r.i
  atBlock : r.i < limit → AtBlock offset r.i
  bytes : ∀ p : ℕ, offset + p < min r.i limit →
    r.buf[p]? = some (fileByte s f (offset.toNat + p))
  count : r.rdcount = int32 (min r.i limit - offset + x)
  excess_nonneg : 0 ≤ x
  excess_start : r.i = offset → x = 0
  excess_lt : r.i < limit → x ≤ 4096
  excess_le : x ≤ 8192
  exact : x = 0 ↔ ∀ i, AtBlock offset i → i < min r.i limit → ExactAt s f stop limit i

theorem int32_add (x y : ℤ) : int32 (int32 x + y) = int32 (x + y) :=
  Int.bmod_add_bmod

namespace Client

/-- One iteration without the cache, on a block of which `d` is read. -/
theorem readBody_noCache {B : Type*} {st : BlockStore B} {store : B} (hino : os.ino fd = some n)
    (h₀ : 0 ≤ offset) (h₁ : offset + size < 2 ^ 63) {r : ReadState Unit} (hge : offset ≤ r.i)
    (hlt : r.i < offset + size) {key : Key} {d : List UInt8}
    (hkey : r.hashKey.load (entryBytes (os.inodes n) (blockIndex r.i)) = key)
    (hread : st.blockRead store key (asked (offset + size) r.i) (r.i % 4096) = some d) :
    readBody noCache st store os {} fd size offset r =
      ⟨(), key, ByteFile.pwrite r.buf d (r.i - offset).toNat, int32 (r.rdcount + d.length),
        r.i + chunkLen (offset + size) r.i, true⟩ := by
  have hlookup : st.blockRead store (lookupAt (os.inodes n) (offset + size) r.hashKey r.i).key
      (lookupAt (os.inodes n) (offset + size) r.hashKey r.i).size
      (lookupAt (os.inodes n) (offset + size) r.hashKey r.i).offset = some d := by
    rw [lookupAt, hkey]
    exact hread
  rw [readBody_eq hino h₀ h₁ noCache hge hlt]
  simp only [noCache, if_true, hlookup, Option.getD_some, Option.map_some]
  rw [lookupAt, hkey]

/-- The reads are exact up to the end of the block of byte `i`, if they were before and this one
is. -/
theorem ReadTo.exact_next {f : ByteFile} {stop : ℤ} {r : ReadState Unit} {x y : ℤ}
    (h : ReadTo s f size offset stop limit r x) (hlt : r.i < limit) (hy : 0 ≤ y)
    (hexact : y = 0 ↔ ExactAt s f stop limit r.i) :
    x + y = 0 ↔ ∀ i, AtBlock offset i → i < r.i + chunkLen limit r.i →
      ExactAt s f stop limit i := by
  have hat := h.atBlock hlt
  have hx := h.excess_nonneg
  have hsum : min r.i limit = r.i := min_eq_left hlt.le
  have hpart := chunkLen_pos hlt
  have hbefore := h.exact
  rw [hsum] at hbefore
  constructor
  · intro hzero i hi hlt'
    by_cases hic : i < r.i
    · exact hbefore.1 (by omega) i hi hic
    · have hir : i = r.i := by
        unfold chunkLen at hlt'
        unfold AtBlock at hi hat
        omega
      rw [hir]
      exact hexact.1 (by omega)
  · intro hall
    have hy0 : y = 0 := hexact.2 (hall r.i hat (by omega))
    have hx0 : x = 0 := hbefore.2 fun i hi hlt' => hall i hi (by omega)
    omega

/-- The bytes are those of the file up to the end of the block of byte `i`, once the part of this
block is copied. -/
theorem ReadTo.bytes_next {f : ByteFile} {stop : ℤ} {r : ReadState Unit} {x : ℤ} {d : List UInt8}
    (h : ReadTo s f size offset stop limit r x) (h₀ : 0 ≤ offset) (hlt : r.i < limit)
    (hmin : chunkLen limit r.i ≤ d.length)
    (hbytes : ∀ j < chunkLen limit r.i, d[j]? = some (fileByte s f (r.i.toNat + j))) {p : ℕ}
    (hp : offset + p < r.i + chunkLen limit r.i) :
    (ByteFile.pwrite r.buf d (r.i - offset).toNat)[p]? =
      some (fileByte s f (offset.toNat + p)) := by
  have hge := h.ge
  have hpart := chunkLen_pos hlt
  have hdne : d ≠ [] := List.ne_nil_of_length_pos (by omega)
  rw [getElem?_pwrite _ hdne]
  split_ifs with hp₁ hp₂
  · -- a byte before this block is kept
    rw [h.bytes p (by omega)]
    rfl
  · have hplace : offset.toNat + p = r.i.toNat + (p - (r.i - offset).toNat) := by omega
    rw [hplace]
    exact hbytes _ (by omega)
  · omega

/-- One iteration. -/
theorem ReadTo.step {r : ReadState Unit} {x : ℤ} (hino : os.ino fd = some n)
    (hfile : Filed s (os.inodes n) (blocks limit)) (h₀ : 0 ≤ offset)
    (h₁ : offset + size < 2 ^ 63) (hle : limit ≤ offset + size)
    (h : ReadTo s (os.inodes n) size offset (offset + size) limit r x) (hlt : r.i < limit) :
    ∃ x', ReadTo s (os.inodes n) size offset (offset + size) limit
        (readBody noCache (Store.blocks whd {}) s os {} fd size offset r) x' ∧
      (readBody noCache (Store.blocks whd {}) s os {} fd size offset r).i =
        r.i + chunkLen (offset + size) r.i := by
  have hge := h.ge
  have hat := h.atBlock hlt
  have hi₀ : 0 ≤ r.i := h₀.trans hge
  have hb : blockIndex r.i < blocks limit := by
    rw [lt_blocks_iff]
    unfold blockIndex
    omega
  obtain ⟨d, hread, hmin, hmax, hexact, hbytes⟩ := blockRead_spec hfile hi₀ hlt hle
  have hpart := chunkLen_pos hlt
  have hnext : min (r.i + (chunkLen (offset + size) r.i : ℤ)) limit =
      r.i + chunkLen limit r.i := by
    unfold chunkLen
    omega
  have hasked : asked (offset + size) r.i ≤ 4096 ∧
      (r.i - offset).toNat + asked (offset + size) r.i ≤ size := by
    unfold asked
    omega
  have hread' : (Store.blocks whd {}).blockRead s (entryKey (os.inodes n) (blockIndex r.i))
      (asked (offset + size) r.i) (r.i % 4096) = some d := hread
  rw [readBody_noCache hino h₀ h₁ hge (hlt.trans_le hle) ((hfile _ hb).1.load_eq _) hread']
  have hbuf : (ByteFile.pwrite r.buf d (r.i - offset).toNat).length = size := by
    rw [length_pwrite_of_le (by rw [h.length]; omega), h.length]
  have hx := h.excess_nonneg
  have hsum : min r.i limit = r.i := min_eq_left hlt.le
  refine ⟨x + (d.length - chunkLen limit r.i), ⟨rfl, hbuf, ?_, ?_, fun p hp => ?_, ?_, ?_, ?_, ?_,
    ?_, ?_⟩, rfl⟩
  · simp only
    omega
  · exact fun hlt' => atBlock_next hge (hlt.trans_le hle) (hlt'.trans_le hle)
  · simp only [hnext] at hp
    exact ReadTo.bytes_next h h₀ hlt hmin hbytes hp
  · simp only [hnext]
    rw [h.count, hsum, int32_add]
    congr 1
    omega
  · omega
  · intro heq
    simp only at heq
    have := chunkLen_pos (hlt.trans_le hle)
    omega
  · -- only the first block and the last are asked for too much
    intro hlt'
    simp only at hlt'
    have hxs := h.excess_lt hlt
    have hstart := h.excess_start
    unfold asked at hmax
    unfold chunkLen at hlt' hmin ⊢
    rcases hat with hat | hat <;> omega
  · have hxs := h.excess_lt hlt
    omega
  · simp only [hnext]
    refine ReadTo.exact_next h hlt (by omega) ?_
    rw [← hexact]
    omega

/-- The loop ends, with the bytes of the file in the buffer. -/
theorem readLoop_spec (whd : WriteHashDb Key) (hino : os.ino fd = some n)
    (hfile : Filed s (os.inodes n) (blocks limit)) (h₀ : 0 ≤ offset)
    (h₁ : offset + size < 2 ^ 63) (hle : limit ≤ offset + size) (hge : offset ≤ limit)
    {buf : List UInt8} (hbuf : buf.length = size) (junk : Key) :
    ∃ r x, readLoop noCache (Store.blocks whd {}) s os {} fd size offset limit
        ((limit - offset).toNat + 1) ⟨(), junk, buf, 0, offset, true⟩ = some r ∧
      ReadTo s (os.inodes n) size offset (offset + size) limit r x ∧ limit ≤ r.i := by
  have hstart : ReadTo s (os.inodes n) size offset (offset + size) limit
      ⟨(), junk, buf, 0, offset, true⟩ 0 := by
    refine ⟨rfl, hbuf, le_rfl, fun _ => Or.inl rfl, fun p hp => ?_, ?_, le_rfl, fun _ => rfl,
      fun _ => by decide, by decide, fun _ i hi hlt => ?_, fun _ => rfl⟩
    · simp only at hp
      omega
    · simp only [min_eq_left hge]
      rw [sub_self, add_zero]
      rfl
    · simp only at hlt
      unfold AtBlock at hi
      omega
  have hbody : ∀ r : ReadState Unit,
      (∃ x, ReadTo s (os.inodes n) size offset (offset + size) limit r x) →
      (r.ok && decide (r.i < limit)) = true →
      ∃ r', some (readBody noCache (Store.blocks whd {}) s os {} fd size offset r) = some r' ∧
        (∃ x, ReadTo s (os.inodes n) size offset (offset + size) limit r' x) ∧
        (limit - r'.i).toNat < (limit - r.i).toNat := by
    rintro r ⟨x, hx⟩ hcond
    rw [Bool.and_eq_true, decide_eq_true_eq] at hcond
    obtain ⟨x', hx', hi'⟩ := ReadTo.step hino hfile h₀ h₁ hle hx hcond.2
    refine ⟨_, rfl, ⟨x', hx'⟩, ?_⟩
    have := chunkLen_pos (hcond.2.trans_le hle)
    rw [hi']
    omega
  obtain ⟨r, hr, ⟨x, hx⟩, hcond⟩ :=
    Loop.run_spec hbody ⟨0, hstart⟩ (Nat.lt_succ_self (limit - offset).toNat)
  rw [hx.ok, Bool.true_and, decide_eq_false_iff_not] at hcond
  exact ⟨r, x, hr, hx, by omega⟩

end Client

end Loop

namespace Client

/-- Without the cache, of a file whose blocks are all stored, `fuse_read` yields the bytes of the
file, and returns their number if and only if it is an `int` and no block read is asked for too
much, except one at the end of its chunk file. -/
theorem fuseRead_exact_iff (whd : WriteHashDb Key) {c : Client (Store Key Q) P} {fh : ℕ} {fd : ℤ}
    {stSize : ℤ} {n : ℕ} (hctx : c.contexts fh = some ⟨fd, stSize⟩) (hino : c.os.ino fd = some n)
    (hst : 0 ≤ stSize ∧ stSize < 2 ^ 63) (hfile : Filed c.store (c.os.inodes n) (blocks stSize))
    {buf : List UInt8} {offset : ℤ} (h₀ : 0 ≤ offset) (h₁ : offset + buf.length < 2 ^ 63)
    (junk : Key) :
    (∃ buf', c.fuseRead noCache (Store.blocks whd {}) () {} fh buf offset junk =
        some ((), buf', some (inFile stSize offset buf.length)) ∧
      ∀ p : ℕ, p < inFile stSize offset buf.length →
        buf'[p]? = some (fileByte c.store (c.os.inodes n) (offset.toNat + p))) ↔
    inFile stSize offset buf.length < 2 ^ 31 ∧
      ∀ i, AtBlock offset i → i < min stSize (offset + buf.length) →
        ExactAt c.store (c.os.inodes n) (offset + buf.length)
          (min stSize (offset + buf.length)) i := by
  have hstop := readStop_eq hst h₀ h₁
  set limit := min stSize (offset + buf.length) with hlimit
  by_cases hge : offset ≤ limit
  · have hfile' : Filed c.store (c.os.inodes n) (blocks limit) := fun b hb => hfile b (by
      rw [lt_blocks_iff] at hb ⊢
      omega)
    obtain ⟨r, x, hr, hx, hend⟩ := readLoop_spec whd hino hfile' h₀ h₁ (min_le_right _ _) hge rfl
      junk
    have hbytes := hx.bytes
    have hcount := hx.count
    have hexact := hx.exact
    have hx₀ := hx.excess_nonneg
    have hx₁ := hx.excess_le
    have hnum : inFile stSize offset buf.length = limit - offset := by
      unfold inFile
      omega
    rw [min_eq_right hend] at hbytes hcount hexact
    have hread : c.fuseRead noCache (Store.blocks whd {}) () {} fh buf offset junk =
        some ((), r.buf, some r.rdcount) := by
      simp only [fuseRead, hctx, Option.bind_some, hstop, hr, Option.map_some, hx.ok, if_true]
    rw [hnum, ← hexact, hread]
    constructor
    · rintro ⟨buf', hres, -⟩
      simp only [Option.some.injEq, Prod.mk.injEq, true_and] at hres
      rw [hcount] at hres
      have h := hres.2
      simp only [int32, Int.bmod] at h
      omega
    · rintro ⟨hfit, hzero⟩
      refine ⟨r.buf, ?_, fun p hp => hbytes p (by omega)⟩
      rw [hcount, hzero, add_zero, int32_of_range (by omega) hfit]
  · -- the read starts behind the end of the file
    have hnum : inFile stSize offset buf.length = 0 := by
      unfold inFile
      omega
    have hread : c.fuseRead noCache (Store.blocks whd {}) () {} fh buf offset junk =
        some ((), buf, some 0) := by
      simp only [fuseRead, hctx, Option.bind_some, hstop, readLoop, Loop.run]
      rw [if_neg (by simp; omega)]
      rfl
    rw [hnum, hread]
    refine ⟨fun _ => ⟨by decide, fun i hi hlt => ?_⟩, fun _ => ⟨buf, rfl, fun p hp => ?_⟩⟩
    · unfold AtBlock at hi
      omega
    · omega

/-- `oneBlock` with the size `stSize`. -/
def oneBlockOf (stSize : ℤ) : Client (Store Key ℕ) ℕ :=
  { oneBlock with contexts := update (fun _ => none) 0 (some ⟨3, stSize⟩) }

theorem oneBlockOf_filed (stSize : ℤ) {m : ℕ} (hm : m ≤ 1) :
    Filed (oneBlockOf stSize).store ((oneBlockOf stSize).os.inodes 0) m := by
  intro b hb
  obtain rfl : b = 0 := by omega
  have hkey : entryKey (oneBlock.os.inodes 0) 0 = sevens := by decide +kernel
  have hlen : oneBlock.os.inodes 0 = offBytes 4096 ++ offBytes 0 ++ sevens.val := rfl
  refine ⟨?_, _, 0, ⟨0, 1, 0⟩, 0, ?_, rfl, rfl, rfl, ?_⟩
  · change HasEntry (oneBlock.os.inodes 0) 0
    rw [hasEntry_iff, hlen]
    simp [sevens.property]
  · change oneBlock.store.db (entryKey (oneBlock.os.inodes 0) 0) = _
    rw [hkey]
    rfl
  · change 0 + 4096 ≤ (oneBlock.store.os.inodes 0).length
    decide +kernel

/-- Two bytes in the middle of a block. -/
theorem fuseRead_exact_two :
    ∃ buf', (oneBlockOf 4096).fuseRead noCache (Store.blocks (.insert Key) {}) () {} 0 [0, 0] 1
        .zero = some ((), buf', some (inFile 4096 1 2)) ∧
      ∀ p : ℕ, p < inFile 4096 1 2 → buf'[p]? =
        some (fileByte (oneBlockOf 4096).store ((oneBlockOf 4096).os.inodes 0) (1 + p)) := by
  refine (fuseRead_exact_iff (.insert Key) (c := oneBlockOf 4096) rfl rfl (by decide)
    (oneBlockOf_filed 4096 (by decide)) (by decide) (by decide) .zero).2
    ⟨by decide, fun i hi hlt => Or.inl ?_⟩
  have hlen : ([0, 0] : List UInt8).length = 2 := rfl
  unfold AtBlock at hi
  unfold asked chunkLen
  omega

/-- Two bytes from a file of one byte : the return value is `2`. -/
theorem read_count_counterexample :
    Filed (oneBlockOf 1).store ((oneBlockOf 1).os.inodes 0) (blocks 1) ∧ inFile 1 0 2 = 1 ∧
    (oneBlockOf 1).fuseRead noCache (Store.blocks (.insert Key) {}) () {} 0 [0, 0] 0 .zero =
      some ((), [1, 2], some 2) ∧
    ¬∃ buf', (oneBlockOf 1).fuseRead noCache (Store.blocks (.insert Key) {}) () {} 0 [0, 0] 0
        .zero = some ((), buf', some (inFile 1 0 2)) ∧
      ∀ p : ℕ, p < inFile 1 0 2 → buf'[p]? =
        some (fileByte (oneBlockOf 1).store ((oneBlockOf 1).os.inodes 0) (0 + p)) := by
  have hread : (oneBlockOf 1).fuseRead noCache (Store.blocks (.insert Key) {}) () {} 0 [0, 0] 0
      .zero = some ((), [1, 2], some 2) := by
    decide +kernel
  have hnum : inFile 1 0 2 = 1 := by decide
  refine ⟨oneBlockOf_filed 1 (by decide), hnum, hread, ?_⟩
  rintro ⟨buf', hres, -⟩
  rw [hread, hnum] at hres
  simp at hres

/-- Two blocks next to each other in their chunk file, all `1` and all `2`. -/
def twoBlocks : Client (Store Key ℕ) ℕ where
  os := (ofFile (metafile 8192 [firstByte [1], firstByte [2]]) 8192 ()).os
  contexts := update (fun _ => none) 0 (some ⟨3, 8192⟩)
  nextFh := 1
  store := ⟨((Store.empty 1 : Store Key ℕ).cfi.grow 0).grow 0,
    update (update (fun _ => none) (firstByte [1]) (some ⟨0, 1, 0⟩)) (firstByte [2])
      (some ⟨0, 1, 4096⟩),
    (Store.empty 1 : Store Key ℕ).os.setContent 0
      (List.replicate 4096 1 ++ List.replicate 4096 2)⟩

/-- The last byte of the first block and the first byte of the second : the bytes are right, but
the byte behind the first chunk is counted twice. -/
example : twoBlocks.fuseRead noCache (Store.blocks (.insert Key) {}) () {} 0 [0, 0] 4095 .zero =
    some ((), [1, 2], some 3) := by
  decide +kernel

end Client

end Agilefs
