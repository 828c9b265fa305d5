import Agilefs.FuseCache
import Agilefs.Runs

/-!
# Reading through the cache

`fuse_read`, over any cache. For each block it reads the key from the metafile and looks it up;
a block that is not in the cache is read from the store and put there. A lookup asks for bytes
from some offset in the block on, but the cache has no offsets : it copies from byte `0` of the
bytes it was filled with, whatever part of the block these are.

`cache_transparent` : a run of reads gives the same bytes and return values with the cache as
without, if every lookup that hits `Repeats` the one that filled the cache : the same offset in
the block, and no more bytes than then and than the store has.
-/

namespace Agilefs

open CInt Posix Function ByteFile

variable {B C P Q : Type*}

/-! ## `fuse_read` -/

/-- The variables of the loop of `fuse_read`; `ok` is unset by a jump to `read_err`. -/
structure ReadState (C : Type*) where
  cache : C
  hashKey : Key
  buf : List UInt8
  rdcount : ℤ
  i : ℤ
  ok : Bool

namespace Client

/-- One iteration. -/
def readBody (bc : BlockCache C) (st : BlockStore B) (store : B) (os : Os P) (io : Io) (fd : ℤ)
    (size : ℕ) (offset : ℤ) (r : ReadState C) : ReadState C :=
  match os.pread (io.pread (entryOffset r.i)) fd 16 (entryOffset r.i) with
  | none => { r with ok := false }
  | some d =>
    let hashKey := r.hashKey.load d
    let pos := (r.i - offset).toNat
    let len := (min 4096 (int64 (size - r.i + offset))).toNat
    let next := r.i + min (int64 (size + offset - r.i)) (4096 - r.i % 4096)
    let (cache, bytes) := bc.cacheRead r.cache hashKey len
    if bytes = [] then
      let res := st.blockRead store hashKey len (r.i % 4096)
      let buf := ByteFile.pwrite r.buf (res.getD []) pos
      let ret := (res.map fun d => (d.length : ℤ)).getD (-1)
      ⟨bc.cacheWrite cache hashKey (ByteFile.pread buf len pos), hashKey, buf,
        int32 (r.rdcount + ret), next, true⟩
    else ⟨cache, hashKey, ByteFile.pwrite r.buf bytes pos, int32 (r.rdcount + bytes.length),
      next, true⟩

/-- The loop of `fuse_read`. -/
def readLoop (bc : BlockCache C) (st : BlockStore B) (store : B) (os : Os P) (io : Io) (fd : ℤ)
    (size : ℕ) (offset stop : ℤ) (n : ℕ) (r : ReadState C) : Option (ReadState C) :=
  Loop.run (fun r => r.ok && decide (r.i < stop))
    (fun r => some (readBody bc st store os io fd size offset r)) n r

/-- Where a read of `size` bytes ends. The comparison is one of unsigned values. -/
def readStop (stSize offset : ℤ) (size : ℕ) : ℤ :=
  if uint64 stSize < uint64 (offset + size) then stSize else int64 (offset + size)

theorem readStop_eq {stSize offset : ℤ} {size : ℕ} (hst : 0 ≤ stSize ∧ stSize < 2 ^ 63)
    (h₀ : 0 ≤ offset) (h₁ : offset + size < 2 ^ 63) :
    readStop stSize offset size = min stSize (offset + size) := by
  rw [readStop, uint64_of_range (by omega) (by omega), uint64_of_range (by omega) (by omega),
    int64_of_range (by omega) (by omega)]
  split_ifs <;> omega

/-- A read inside the file. -/
theorem readStop_of_le {stSize offset : ℤ} {size : ℕ} (h₀ : 0 ≤ offset)
    (hend : offset + size ≤ stSize) (hmax : stSize < 2 ^ 63) :
    readStop stSize offset size = offset + size := by
  rw [readStop_eq ⟨by omega, hmax⟩ h₀ (by omega), min_eq_right hend]

/-- `fuse_read` into the buffer `buf`. The stack has `junk` in `hash_key`. -/
def fuseRead (bc : BlockCache C) (st : BlockStore B) (c : Client B P) (cache : C) (io : Io)
    (fh : ℕ) (buf : List UInt8) (offset : ℤ) (junk : Key) :
    Option (C × List UInt8 × Option ℤ) :=
  (c.contexts fh).bind fun ctx =>
    let stop := readStop ctx.stSize offset buf.length
    (readLoop bc st c.store c.os io ctx.fd buf.length offset stop ((stop - offset).toNat + 1)
      ⟨cache, junk, buf, 0, offset, true⟩).map fun r =>
        (r.cache, r.buf, if r.ok then some r.rdcount else none)

end Client

/-- A call of `fuse_read`. -/
structure ReadCall where
  fh : ℕ
  buf : List UInt8
  offset : ℤ
  junk : Key

namespace Client

/-- The buffers and return values of a run of reads. -/
def reads (bc : BlockCache C) (st : BlockStore B) (c : Client B P) :
    C → List ReadCall → Option (List (List UInt8 × Option ℤ))
  | _, [] => some []
  | cache, call :: calls =>
    (c.fuseRead bc st cache {} call.fh call.buf call.offset call.junk).bind fun (cache, out) =>
      (reads bc st c cache calls).map (out :: ·)

end Client

/-! ## Lookups -/

/-- A lookup of `size` bytes from `offset` in the block of a key. -/
structure Lookup where
  key : Key
  offset : ℤ
  size : ℕ
  deriving DecidableEq

/-- The lookup of the block of byte `i`, in a read of a file up to `stop`. -/
def lookupAt (f : ByteFile) (stop : ℤ) (hashKey : Key) (i : ℤ) : Lookup :=
  ⟨hashKey.load (entryBytes f (blockIndex i)), i % 4096, (min 4096 (stop - i)).toNat⟩

/-- The lookups of a read of a file up to `stop`. -/
def lookupsTo (f : ByteFile) (stop : ℤ) : ℕ → Key → ℤ → List Lookup
  | 0, _, _ => []
  | n + 1, hashKey, i =>
    if i < stop then
      lookupAt f stop hashKey i ::
        lookupsTo f stop n (lookupAt f stop hashKey i).key (i + Client.chunkLen stop i)
    else []

/-- The lookups of a call. -/
def Client.lookups (c : Client B P) (call : ReadCall) : List Lookup :=
  match c.contexts call.fh with
  | some ctx => lookupsTo (c.os.content ctx.fd) (call.offset + call.buf.length)
      (call.buf.length + 1) call.junk call.offset
  | none => []

/-- The hashes and lives of the cache and, of each key, the offset and size of its last lookup
that was not in the cache. -/
structure Filled extends Tags where
  filled : Key → Option (ℤ × ℕ)

/-- At the start of the program. -/
def Filled.empty : Filled := ⟨Cache.empty.toTags, fun _ => none⟩

/-- A lookup. -/
def Filled.visit (s : Filled) (l : Lookup) : Filled :=
  let t := (s.readWays (lineOf l.key) l.key).2
  if s.Cached l.key then ⟨t, s.filled⟩
  else ⟨t.write l.key, update s.filled l.key (some (l.offset, l.size))⟩

/-- A lookup that hits asks for bytes from the offset the cache was filled from, no more than it
was filled with, and no more than the store has. -/
def Repeats (st : BlockStore B) (store : B) (s : Filled) (l : Lookup) : Prop :=
  s.Cached l.key → (∃ n, s.filled l.key = some (l.offset, n) ∧ l.size ≤ n) ∧
    ∃ d, st.blockRead store l.key l.size l.offset = some d ∧ d.length = l.size

/-- The lookups of a run, each of which `Repeats`. -/
def RepeatsEach (st : BlockStore B) (store : B) (s : Filled) (ls : List Lookup) : Prop :=
  Runs.Each (fun s l => some (Filled.visit s l)) (Repeats st store) s ls

/-! ## What the cache holds -/

/-- A shorter read of a block gives the front of a longer one. -/
structure BlockStore.Reads (st : BlockStore B) (store : B) : Prop where
  length_le : ∀ k n off d, st.blockRead store k n off = some d → d.length ≤ n
  front : ∀ k n n' off d, n ≤ n' → st.blockRead store k n off = some d → d.length = n →
    ∃ d', st.blockRead store k n' off = some d' ∧ d'.take n = d

theorem Store.blocks_reads (whd : WriteHashDb Key) (store : Store Key Q) :
    (Store.blocks whd {}).Reads store := by
  have hread : ∀ k n off d, store.blockRead {} k n off = some d →
      ∃ f p, ∀ n', store.blockRead {} k n' off = some (ByteFile.pread f n' p) := by
    intro k n off d h
    cases hk : store.db k with
    | none => simp [Store.blockRead, dbGet_none hk, dbNotFound] at h
    | some bd =>
      simp only [Store.blockRead, dbGet_some hk, ne_eq, not_true, if_false, Os.pread] at h ⊢
      split_ifs at h ⊢ with hoff
      obtain ⟨i, hi, -⟩ := Option.bind_eq_some_iff.1 h
      exact ⟨store.os.inodes i, (bd.offset + off).toNat, fun n' => by simp [hi]⟩
  refine ⟨fun k n off d h => ?_, fun k n n' off d hn h hd => ?_⟩
  · obtain ⟨f, p, hf⟩ := hread k n off d h
    obtain rfl := Option.some.inj ((hf n).symm.trans h)
    rw [length_pread]
    exact min_le_left _ _
  · obtain ⟨f, p, hf⟩ := hread k n off d h
    obtain rfl := Option.some.inj ((hf n).symm.trans h)
    exact ⟨_, hf n', by rw [ByteFile.pread, ByteFile.pread, List.take_take, min_eq_left hn]⟩

/-- The ways that hold the key of a filled block hold the bytes of the store. -/
def Valid (st : BlockStore B) (store : B) (c : Cache) (filled : Key → Option (ℤ × ℕ)) : Prop :=
  ∀ k way off n n' d, way < cacheWays → c.hashArr (lineOf k) way = k →
    filled k = some (off, n') → n ≤ n' → st.blockRead store k n off = some d → d.length = n →
    (c.blockArr (lineOf k) way).val.take n = d

theorem Valid.congr {st : BlockStore B} {store : B} {c c' : Cache}
    {filled : Key → Option (ℤ × ℕ)} (h : Valid st store c filled)
    (hhash : c'.hashArr = c.hashArr) (hblock : c'.blockArr = c.blockArr) :
    Valid st store c' filled := by
  rw [Valid, hhash, hblock]
  exact h

/-- A way is filled. -/
theorem Valid.write {st : BlockStore B} {store : B} {c : Cache} {filled : Key → Option (ℤ × ℕ)}
    (h : Valid st store c filled) {key : Key} (hnot : ¬c.Cached key) {off : ℤ} {len : ℕ}
    (hlen : len ≤ 4096) {buf : List UInt8}
    (hbuf : ∀ n d, n ≤ len → st.blockRead store key n off = some d → d.length = n →
      buf.take n = d) :
    Valid st store (c.cacheWrite key buf) (update filled key (some (off, len))) := by
  intro k way off' n n' d hway hk hfill hn hread hd
  -- the ways that stay hold other keys
  have hold : c.hashArr (lineOf k) way = k → (c.blockArr (lineOf k) way).val.take n = d := by
    intro hk'
    have hne : k ≠ key := by
      rintro rfl
      exact hnot ⟨way, hway, hk'⟩
    rw [update_of_ne hne] at hfill
    exact h k way off' n n' d hway hk' hfill hn hread hd
  rcases c.cacheWrite_cases key buf with ⟨w, hhash, hblock⟩ | ⟨hhash, hblock⟩
  · rw [hhash, setAt_apply] at hk
    rw [hblock, setAt_apply]
    by_cases hw : lineOf k = lineOf key ∧ way = w
    · rw [if_pos hw] at hk
      subst hk
      rw [update_self, Option.some.injEq, Prod.mk.injEq] at hfill
      obtain ⟨rfl, rfl⟩ := hfill
      have hfront := hbuf n d hn hread hd
      have hle : n ≤ buf.length := by
        rw [← hfront, List.length_take] at hd
        omega
      rw [if_pos hw, Block.take_copy _ (hn.trans hlen) hle, hfront]
    · rw [if_neg hw] at hk ⊢
      exact hold hk
  · rw [hhash] at hk
    rw [hblock]
    exact hold hk

/-! ## One iteration -/

/-- The variables without the cache. -/
def ReadState.erase (r : ReadState C) : ReadState Unit :=
  ⟨(), r.hashKey, r.buf, r.rdcount, r.i, r.ok⟩

section Iteration

variable {st : BlockStore B} {store : B} {os : Os P} {fd : ℤ} {n size : ℕ} {offset : ℤ}

namespace Client

/-- One iteration, on offsets that fit in an `off_t`. -/
theorem readBody_eq (hino : os.ino fd = some n) (h₀ : 0 ≤ offset) (h₁ : offset + size < 2 ^ 63)
    (bc : BlockCache C) {r : ReadState C} (hle : offset ≤ r.i) (hlt : r.i < offset + size) :
    readBody bc st store os {} fd size offset r =
      let l := lookupAt (os.inodes n) (offset + size) r.hashKey r.i
      let pos := (r.i - offset).toNat
      let next := r.i + chunkLen (offset + size) r.i
      let (cache, bytes) := bc.cacheRead r.cache l.key l.size
      if bytes = [] then
        let res := st.blockRead store l.key l.size l.offset
        let buf := ByteFile.pwrite r.buf (res.getD []) pos
        ⟨bc.cacheWrite cache l.key (ByteFile.pread buf l.size pos), l.key, buf,
          int32 (r.rdcount + (res.map fun d => (d.length : ℤ)).getD (-1)), next, true⟩
      else ⟨cache, l.key, ByteFile.pwrite r.buf bytes pos, int32 (r.rdcount + bytes.length),
        next, true⟩ := by
  have hlen : int64 (size - r.i + offset) = offset + size - r.i := by
    rw [int64_of_range (by omega) (by omega)]
    omega
  have hnext : r.i + min (int64 (size + offset - r.i)) (4096 - r.i % 4096) =
      r.i + chunkLen (offset + size) r.i := by
    rw [int64_of_range (by omega) (by omega), chunkLen]
    omega
  have hcontent : os.content fd = os.inodes n := by simp [Os.content, hino]
  simp only [readBody, entryOffset_eq (h₀.trans hle), Os.pread_full hino, hlen, hnext, hcontent,
    lookupAt, entryBytes]
  rfl

/-- What a read of a block leaves in the buffer, and the cache is filled with, begins with what a
shorter read of the block reads. -/
theorem take_pread_of_reads (hst : st.Reads store) {key : Key} {len : ℕ} {off : ℤ}
    (buf : List UInt8) (pos : ℕ) {m : ℕ} {d : List UInt8} (hm : m ≤ len)
    (hread : st.blockRead store key m off = some d) (hd : d.length = m) :
    (ByteFile.pread (ByteFile.pwrite buf ((st.blockRead store key len off).getD []) pos)
      len pos).take m = d := by
  obtain ⟨d', hread', hfront⟩ := hst.front _ _ _ _ _ hm hread hd
  rw [hread', Option.getD_some]
  have hle : m ≤ d'.length := by
    rw [← hfront, List.length_take] at hd
    omega
  calc (ByteFile.pread (ByteFile.pwrite buf d' pos) len pos).take m
      = (ByteFile.pread (ByteFile.pwrite buf d' pos) d'.length pos).take m := by
        simp only [ByteFile.pread, List.take_take, min_eq_left hm, min_eq_left hle]
    _ = d := by rw [pread_pwrite_self, hfront]

/-- With the cache an iteration does what it does without, and keeps the cache valid. -/
theorem readBody_same (hst : st.Reads store) (hino : os.ino fd = some n) (h₀ : 0 ≤ offset)
    (h₁ : offset + size < 2 ^ 63) {r : ReadState Cache} (hle : offset ≤ r.i)
    (hlt : r.i < offset + size) (hbuf : r.buf.length = size) {filled : Key → Option (ℤ × ℕ)}
    (hv : Valid st store r.cache filled) (hr : Repeats st store ⟨r.cache.toTags, filled⟩
      (lookupAt (os.inodes n) (offset + size) r.hashKey r.i)) :
    ∃ r' filled', readBody fuseCache st store os {} fd size offset r = r' ∧
      readBody noCache st store os {} fd size offset r.erase = r'.erase ∧
      Filled.visit ⟨r.cache.toTags, filled⟩
        (lookupAt (os.inodes n) (offset + size) r.hashKey r.i) = ⟨r'.cache.toTags, filled'⟩ ∧
      Valid st store r'.cache filled' ∧ r'.ok = true ∧ r'.buf.length = size ∧
      r'.hashKey = (lookupAt (os.inodes n) (offset + size) r.hashKey r.i).key ∧
      r'.i = r.i + chunkLen (offset + size) r.i := by
  rw [readBody_eq hino h₀ h₁ fuseCache hle hlt,
    readBody_eq (r := r.erase) hino h₀ h₁ noCache hle hlt]
  simp only [ReadState.erase]
  set l := lookupAt (os.inodes n) (offset + size) r.hashKey r.i with hl
  set pos := (r.i - offset).toNat with hpos
  have hsize : l.size ≤ 4096 ∧ 0 < l.size ∧ pos + l.size ≤ size := by
    simp only [hl, lookupAt]
    omega
  have hplace : ∀ d : List UInt8, d.length ≤ l.size → (ByteFile.pwrite r.buf d pos).length = size :=
    fun d hd => (length_pwrite_of_le (by omega)).trans hbuf
  by_cases hc : r.cache.Cached l.key
  · obtain ⟨⟨n', hfill, hn⟩, d, hread, hd⟩ := hr hc
    have hbytes : (r.cache.cacheRead l.key l.size).2 = d := by
      rcases r.cache.cacheRead_cases l.key l.size with ⟨way, hway, hhash, hcopy⟩ | ⟨hnot, -⟩
      · rw [hcopy]
        exact hv l.key way l.offset l.size n' d hway hhash hfill hn hread hd
      · exact (hnot hc).elim
    have hne : d ≠ [] := fun hnil => by
      rw [hnil, List.length_nil] at hd
      omega
    refine ⟨⟨(r.cache.cacheRead l.key l.size).1, l.key, ByteFile.pwrite r.buf d pos,
      int32 (r.rdcount + d.length), r.i + chunkLen (offset + size) r.i, true⟩, filled, ?_, ?_, ?_,
      hv.congr (Cache.cacheRead_hashArr ..) (Cache.cacheRead_blockArr ..), rfl, hplace d hd.le, rfl,
      rfl⟩
    · simp only [fuseCache, hbytes, if_neg hne]
    · simp [noCache, hread]
    · simp only [Filled.visit, if_pos hc, Cache.cacheRead_toTags]
  · have hnil := (r.cache.cacheRead_eq_nil_iff l.key hsize.2.1).2 hc
    generalize hres : st.blockRead store l.key l.size l.offset = res
    have hlen : (res.getD []).length ≤ l.size := by
      cases res with
      | none => simp
      | some d => exact hst.length_le _ _ _ _ hres
    set buf := ByteFile.pwrite r.buf (res.getD []) pos with hbuf'
    have hfront : ∀ m d, m ≤ l.size → st.blockRead store l.key m l.offset = some d →
        d.length = m → (ByteFile.pread buf l.size pos).take m = d := fun m d hm hread hd => by
      rw [hbuf', ← hres]
      exact take_pread_of_reads hst r.buf pos hm hread hd
    have hread : Valid st store (r.cache.cacheRead l.key l.size).1 filled :=
      hv.congr (Cache.cacheRead_hashArr ..) (Cache.cacheRead_blockArr ..)
    have hnot : ¬(r.cache.cacheRead l.key l.size).1.Cached l.key := by
      rwa [Tags.Cached, Cache.cacheRead_hashArr]
    refine ⟨⟨(r.cache.cacheRead l.key l.size).1.cacheWrite l.key (ByteFile.pread buf l.size pos),
      l.key, buf, int32 (r.rdcount + (res.map fun d => (d.length : ℤ)).getD (-1)),
      r.i + chunkLen (offset + size) r.i, true⟩, update filled l.key (some (l.offset, l.size)),
      ?_, ?_, ?_, ?_, rfl, hplace _ hlen, rfl, rfl⟩
    · simp only [fuseCache, hnil, if_true, hbuf']
    · simp only [noCache, if_true, hbuf']
    · simp only [Filled.visit, if_neg hc, Cache.cacheWrite_toTags, Cache.cacheRead_toTags]
    · dsimp only
      exact hread.write hnot hsize.1 hfront

/-! ## Runs -/

/-- The loop, and the lookups that come after it. -/
theorem readLoop_same (hst : st.Reads store) (hino : os.ino fd = some n) (h₀ : 0 ≤ offset)
    (h₁ : offset + size < 2 ^ 63) (ls : List Lookup) : ∀ (m : ℕ) (r : ReadState Cache)
    (filled : Key → Option (ℤ × ℕ)), offset ≤ r.i → r.i ≤ offset + size →
      (offset + size - r.i).toNat < m → r.ok = true → r.buf.length = size →
      Valid st store r.cache filled → RepeatsEach st store ⟨r.cache.toTags, filled⟩
        (lookupsTo (os.inodes n) (offset + size) m r.hashKey r.i ++ ls) →
      ∃ r' filled',
        readLoop fuseCache st store os {} fd size offset (offset + size) m r = some r' ∧
        readLoop noCache st store os {} fd size offset (offset + size) m r.erase = some r'.erase ∧
        Valid st store r'.cache filled' ∧
        RepeatsEach st store ⟨r'.cache.toTags, filled'⟩ ls
  | 0, _, _, _, _, hm, _, _, _, _ => by omega
  | m + 1, r, filled, hle, hstop, hm, hok, hbuf, hv, hls => by
    by_cases hlt : r.i < offset + size
    · rw [lookupsTo, if_pos hlt, List.cons_append] at hls
      obtain ⟨hr, hrest⟩ := hls
      obtain ⟨r₁, filled₁, hbody, hbody', hvisit, hv₁, hok₁, hbuf₁, hkey₁, hi₁⟩ :=
        readBody_same hst hino h₀ h₁ hle hlt hbuf hv hr
      have hrest₁ := hrest _ rfl
      have hpos := chunkLen_pos hlt
      have hend := add_chunkLen_le hlt.le
      rw [hvisit, ← hkey₁, ← hi₁] at hrest₁
      obtain ⟨r', filled', hrun, hrun', hv', hls'⟩ := readLoop_same hst hino h₀ h₁ ls m r₁ filled₁
        (by omega) (by omega) (by omega) hok₁ hbuf₁ hv₁ hrest₁
      refine ⟨r', filled', ?_, ?_, hv', hls'⟩
      · rw [readLoop, Loop.run, if_pos (by simp [hok, hlt]), hbody]
        exact hrun
      · rw [readLoop, Loop.run, if_pos (by simp [ReadState.erase, hok, hlt]), hbody']
        exact hrun'
    · rw [lookupsTo, if_neg hlt, List.nil_append] at hls
      refine ⟨r, filled, ?_, ?_, hv, hls⟩
      · rw [readLoop, Loop.run, if_neg (by simp [hlt])]
      · rw [readLoop, Loop.run, if_neg (by simp [ReadState.erase, hlt])]

/-- The call reads inside a file through an open handle. -/
def Inside (c : Client B P) (call : ReadCall) : Prop :=
  ∃ ctx n, c.contexts call.fh = some ctx ∧ c.os.ino ctx.fd = some n ∧ 0 ≤ call.offset ∧
    call.offset + call.buf.length ≤ ctx.stSize ∧ ctx.stSize < 2 ^ 63

/-- A call, and the lookups that come after it. -/
theorem fuseRead_same {c : Client B P} (hst : st.Reads c.store) {call : ReadCall}
    (hin : c.Inside call) {cache : Cache} {filled : Key → Option (ℤ × ℕ)} {ls : List Lookup}
    (hv : Valid st c.store cache filled)
    (hls : RepeatsEach st c.store ⟨cache.toTags, filled⟩ (c.lookups call ++ ls)) :
    ∃ cache' filled' out, c.fuseRead fuseCache st cache {} call.fh call.buf call.offset call.junk =
        some (cache', out) ∧
      c.fuseRead noCache st () {} call.fh call.buf call.offset call.junk = some ((), out) ∧
      Valid st c.store cache' filled' ∧ RepeatsEach st c.store ⟨cache'.toTags, filled'⟩ ls := by
  obtain ⟨ctx, n, hctx, hino, h₀, hend, hmax⟩ := hin
  have hstop := readStop_of_le h₀ hend hmax
  have hfuel : (call.offset + call.buf.length - call.offset).toNat = call.buf.length := by omega
  have hcontent : c.os.content ctx.fd = c.os.inodes n := by simp [Os.content, hino]
  have h₁ : call.offset + (call.buf.length : ℤ) < 2 ^ 63 := by omega
  simp only [Client.lookups, hctx, hcontent] at hls
  obtain ⟨r, filled', hrun, hrun', hv', hls'⟩ := readLoop_same hst hino h₀ h₁ ls
    (call.buf.length + 1) ⟨cache, call.junk, call.buf, 0, call.offset, true⟩ filled
    (le_refl call.offset) (by simp only; omega) (by simp only; omega) rfl rfl hv hls
  refine ⟨r.cache, filled', (r.buf, if r.ok then some r.rdcount else none), ?_, ?_, hv', hls'⟩
  · simp only [fuseRead, hctx, Option.bind_some, hstop, hfuel, hrun, Option.map_some]
  · have herase : (⟨(), call.junk, call.buf, 0, call.offset, true⟩ : ReadState Unit) =
        ReadState.erase ⟨cache, call.junk, call.buf, 0, call.offset, true⟩ := rfl
    simp only [fuseRead, hctx, Option.bind_some, hstop, hfuel, herase, hrun', Option.map_some]
    rfl

theorem reads_same {c : Client B P} (hst : st.Reads c.store) :
    ∀ (calls : List ReadCall) {cache : Cache} {filled : Key → Option (ℤ × ℕ)},
      (∀ call ∈ calls, c.Inside call) → Valid st c.store cache filled →
      RepeatsEach st c.store ⟨cache.toTags, filled⟩ (calls.flatMap c.lookups) →
      ∃ outs, c.reads fuseCache st cache calls = some outs ∧
        c.reads noCache st () calls = some outs
  | [], _, _, _, _, _ => ⟨[], rfl, rfl⟩
  | call :: calls, cache, filled, hin, hv, hls => by
    obtain ⟨cache', filled', out, hread, hread', hv', hls'⟩ :=
      fuseRead_same hst (hin call List.mem_cons_self) hv hls
    obtain ⟨outs, houts, houts'⟩ := reads_same hst calls
      (fun call hmem => hin call (List.mem_cons_of_mem _ hmem)) hv' hls'
    exact ⟨out :: outs, by simp [reads, hread, houts], by simp [reads, hread', houts']⟩

end Client

end Iteration

namespace Client

/-- A run of reads inside files, from an empty cache, gives the same with the cache as without,
if each lookup of the run that hits `Repeats` the one that filled the cache. -/
theorem cache_transparent {whd : WriteHashDb Key} {c : Client (Store Key Q) P}
    {calls : List ReadCall} (hin : ∀ call ∈ calls, c.Inside call)
    (hrepeats : RepeatsEach (Store.blocks whd {}) c.store .empty (calls.flatMap c.lookups)) :
    ∃ outs, c.reads fuseCache (Store.blocks whd {}) Cache.empty calls = some outs ∧
      c.reads noCache (Store.blocks whd {}) () calls = some outs :=
  reads_same (Store.blocks_reads whd c.store) calls hin
    (fun _ _ _ _ _ _ _ _ hfill => by simp at hfill) hrepeats

/-- The key of the block of `oneBlock`. -/
def sevens : Key := ⟨List.replicate 16 7, rfl⟩

/-- A file of one block, open with the handle `0`. The block has the bytes `1, 2, 2, …`. -/
def oneBlock : Client (Store Key ℕ) ℕ where
  os :=
    { names := update (fun _ => none) 0 (some (.file 0))
      inodes := update (fun _ => []) 0 (offBytes 4096 ++ offBytes 0 ++ sevens.val)
      nextIno := 1
      fds := update (fun _ => none) 3 (some ⟨0, 0⟩)
      nextFd := 4 }
  contexts := update (fun _ => none) 0 (some ⟨3, 4096⟩)
  nextFh := 1
  store := ⟨(Store.empty 1 : Store Key ℕ).cfi.grow 0,
    update (fun _ => none) sevens (some ⟨0, 1, 0⟩),
    (Store.empty 1 : Store Key ℕ).os.setContent 0 (1 :: List.replicate 4095 2)⟩

theorem oneBlock_inside (junk : Key) {buf : List UInt8} {offset : ℤ} (h₀ : 0 ≤ offset)
    (hend : offset + buf.length ≤ 4096) : oneBlock.Inside ⟨0, buf, offset, junk⟩ :=
  ⟨⟨3, 4096⟩, 0, rfl, rfl, h₀, hend, by decide⟩

/-- Two bytes from byte `0`, and the first of them again. -/
theorem cache_transparent_again :
    ∃ outs, oneBlock.reads fuseCache (Store.blocks (.insert Key) {}) Cache.empty
        [⟨0, [0, 0], 0, .zero⟩, ⟨0, [0], 0, .zero⟩] = some outs ∧
      oneBlock.reads noCache (Store.blocks (.insert Key) {}) ()
        [⟨0, [0, 0], 0, .zero⟩, ⟨0, [0], 0, .zero⟩] = some outs := by
  have hlookups : [⟨0, [0, 0], 0, .zero⟩, ⟨0, [0], 0, .zero⟩].flatMap oneBlock.lookups =
      [⟨sevens, 0, 2⟩, ⟨sevens, 0, 1⟩] := by
    decide +kernel
  refine cache_transparent ?_ ?_
  · simp only [List.forall_mem_cons]
    exact ⟨oneBlock_inside _ le_rfl (by decide), oneBlock_inside _ le_rfl (by decide), by simp⟩
  · rw [hlookups]
    refine ⟨fun hc => absurd hc (by decide +kernel), fun s hs => ⟨fun _ => ?_, fun _ _ => trivial⟩⟩
    obtain rfl := Option.some.inj hs
    exact ⟨⟨2, by decide +kernel, by decide⟩, [1], by decide +kernel, rfl⟩

/-- Byte `1` of a block and then byte `0` : with the cache the second read gives byte `1` again. -/
theorem cache_offset_counterexample :
    (∀ call ∈ [(⟨0, [0], 1, .zero⟩ : ReadCall), ⟨0, [0], 0, .zero⟩], oneBlock.Inside call) ∧
    oneBlock.reads fuseCache (Store.blocks (.insert Key) {}) Cache.empty
      [⟨0, [0], 1, .zero⟩, ⟨0, [0], 0, .zero⟩] = some [([2], some 1), ([2], some 1)] ∧
    oneBlock.reads noCache (Store.blocks (.insert Key) {}) ()
      [⟨0, [0], 1, .zero⟩, ⟨0, [0], 0, .zero⟩] = some [([2], some 1), ([1], some 1)] := by
  refine ⟨?_, by decide +kernel, by decide +kernel⟩
  simp only [List.forall_mem_cons]
  exact ⟨oneBlock_inside _ (by decide) (by decide), oneBlock_inside _ le_rfl (by decide), by simp⟩

end Client

end Agilefs
