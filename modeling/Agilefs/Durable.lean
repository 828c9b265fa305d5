import Agilefs.Restart
import Agilefs.Ingest

/-!
# A store that is shut down and started again

Calls of the chunk store with `release_chunk_file` and `init_chunk_file` at any point between
them. The database keeps its records, the chunk files keep their bytes and the free lists go through
their files; the descriptors and the arrays of `cfi` are new.

`store_durable` : whatever the shutdowns, the calls return what they would on a map that says how
often each block is referenced, on which a shutdown with its restart does nothing.
-/

namespace Agilefs

open Function Posix ByteFile

/-- A call of the chunk store, or a shutdown with the restart that follows. -/
inductive DurableOp (K : Type*) where
  | put (o : Outcome) (key : K) (block : Block)
  | del (o : Outcome) (key : K)
  | read (o : Outcome) (key : K) (size offset : ℕ)
  | restart (env : InitEnv) (base : ChunkFileInfo)

/-- What it returns. -/
inductive DurableRet where
  | code (ret : ℤ)
  | bytes (d : Option (List UInt8))
  | restarted

variable {K P : Type*} [DecidableEq K] [DecidableEq P]

namespace Store

omit [DecidableEq K] in
/-- `release_chunk_file`, then `init_chunk_file` of the next process. -/
def restart (doc : List (XmlEvent P)) (env : InitEnv) (base : ChunkFileInfo) (s : Store K P) :
    Option (Store K P) :=
  (releaseChunkFile s.os s.cfi doc).bind fun os =>
    (initChunkFile env os base doc).map fun (os, cfi) => ⟨cfi, s.db, os⟩

/-- One operation on a store with the configuration `doc`. -/
def durableStep (whd : WriteHashDb K) (doc : List (XmlEvent P)) (s : Store K P) :
    DurableOp K → Option (Store K P × DurableRet)
  | .put o key block =>
    (s.putNewChunk whd o key block.val fspSize).map fun (s, ret) => (s, .code ret)
  | .del o key => (s.delChunk o key).map fun (s, ret) => (s, .code ret)
  | .read o key size offset => some (s, .bytes (s.blockRead o key size offset))
  | .restart env base => (s.restart doc env base).map fun s => (s, .restarted)

omit [DecidableEq K] [DecidableEq P] in
/-- How often each block present is referenced. -/
def counts (s : Store K P) : K → Option ℤ := fun k => (s.db k).map BlockData.refCount

end Store

/-- The same operation on a map from keys to counts, where the block of a key is `content key`. -/
def countsStep (content : K → Block) (c : K → Option ℤ) :
    DurableOp K → Option ((K → Option ℤ) × DurableRet)
  | .put o key _ =>
    match c key with
    | some n =>
      if o.dbPut = 0 then some (update c key (some (n + 1)), .code 0) else some (c, .code (-1))
    | none =>
      if o.writeHashDb = 0 then some (update c key (some 1), .code 0) else some (c, .code (-1))
  | .del _ _ => some (c, .code 0)
  | .read _ key size offset =>
    some (c, .bytes ((c key).map fun _ => pread (content key).val size offset))
  | .restart _ _ => some (c, .restarted)

namespace Store

/-- The database may fail to store, but reads and transfers succeed; equal keys carry equal blocks,
a file is found for a new key, and no count overflows. What is deleted is present, and what is
read is inside a block. -/
def Regular (content : K → Block) (s : Store K P) : DurableOp K → Prop
  | .put o key block =>
    o.dbGet = 0 ∧ o.pwrite = .full ∧ block = content key ∧
      (s.db key = none → s.cfi.getProperChunkFile ≠ -1) ∧ s.CountFits key
  | .del o key => o.dbGet = 0 ∧ (s.db key).isSome
  | .read o _ size offset => o.dbGet = 0 ∧ o.pread = .full ∧ offset + size ≤ 4096
  | .restart _ _ => True

/-- What holds of a store that runs on the configuration `doc`. -/
structure Durable (content : K → Block) (doc : List (XmlEvent P)) (s : Store K P) : Prop where
  wellFormed : s.WellFormed
  sized : s.cfi.Sized
  holds : s.Holds content
  running : Running s.os s.cfi doc

variable {content : K → Block} {doc : List (XmlEvent P)} {s : Store K P}

/-! ## A new chunk -/

omit [DecidableEq P] in
/-- A put of a key that is absent, with the whole block written. -/
theorem putNewChunk_full (whd : WriteHashDb K) (hwf : s.WellFormed) {o : Outcome}
    (hget : o.dbGet = 0) (hpw : o.pwrite = .full) {key : K} (hk : s.db key = none) {i : ℕ}
    (hi : i < s.cfi.files) (hp : s.cfi.getProperChunkFile = i)
    (hal : s.cfi.curSize i % 4096 = 0) (block : Block) :
    ∃ (cfi' : ChunkFileInfo) (off n : ℕ), s.cfi.takeSlot i = some (cfi', (off : ℤ)) ∧
      s.os.ino (s.cfi.fds i) = some n ∧
      s.cfi.Extends cfi' ∧
      s.putNewChunk whd o key block.val fspSize =
        some (⟨cfi', if o.writeHashDb = 0 then update s.db key (some ⟨i, 1, off⟩) else s.db,
          s.os.setContent n ((s.os.inodes n).pwrite block.val off)⟩,
          if o.writeHashDb = 0 then 0 else -1) := by
  obtain ⟨cfi', off, ht, -, hvac, hext⟩ := hwf.sound.takeSlot hi fun _ => hal
  obtain ⟨n, hn⟩ := hwf.opened i hi
  have hcast : ((off.toNat : ℕ) : ℤ) = off := Int.toNat_of_nonneg hvac.slot.nonneg
  have htake : block.val.take fspSize = block.val := List.take_of_length_le block.property.le
  have hlen : (block.val.length : ℤ) = fspSize := congrArg _ block.property
  have hneg : ¬((i : ℤ) < 0) := by omega
  refine ⟨cfi', off.toNat, n, by rw [hcast]; exact ht, hn, hext, ?_⟩
  have hwrite : s.os.pwrite .full (cfi'.fds i) block.val off =
      (s.os.setContent n ((s.os.inodes n).pwrite block.val off.toNat), (fspSize : ℤ)) := by
    have := Os.pwrite_full (hext.fds ▸ hn) block.val off.toNat
    rw [hcast, hlen] at this
    exact this
  rw [putNewChunk_absent whd hget hk, blockWrite, hp]
  simp only [hneg, if_false, Int.toNat_natCast, ht, Option.map_some, hpw, htake, hwrite, if_true,
    whd.spec, hcast]
  split_ifs with h <;> simp_all [fspSize]

omit [DecidableEq K] [DecidableEq P] in
/-- The slot is at the end of its file or inside it, and the file ends where `cur_size` says. -/
theorem Durable.curSize_takeSlot (h : s.Durable content doc) {i : ℕ} (hi : i < s.cfi.files)
    {cfi' : ChunkFileInfo} {off : ℕ} (ht : s.cfi.takeSlot i = some (cfi', (off : ℤ)))
    {c : ByteFile} (hc : c.length = s.cfi.curSize i) (block : Block) :
    cfi'.curSize i = (c.pwrite block.val off).length ∧
      ∀ j, j ≠ i → cfi'.curSize j = s.cfi.curSize j := by
  have hsound := h.wellFormed.sound
  have hmod := (h.sized i hi).1
  have hne : block.val ≠ [] := by
    intro hnil
    have := block.property
    rw [hnil] at this
    cases this
  have hlen := ByteFile.length_pwrite c hne off
  rw [block.property] at hlen
  rcases ChunkFileInfo.takeSlot_cases (hsound.lists i hi) (hsound.freeOffsets_nonneg hi) with
    ⟨-, ht'⟩ | ⟨fcl, o, os, hcons, -, -, ht'⟩
  · rw [ht, Option.some.injEq, Prod.mk.injEq] at ht'
    obtain ⟨rfl, hoff⟩ := ht'
    refine ⟨?_, fun j hj => ?_⟩ <;> rw [ChunkFileInfo.grow_curSize]
    · rw [if_pos rfl, hlen]
      omega
    · rw [if_neg hj]
  · rw [ht, Option.some.injEq, Prod.mk.injEq] at ht'
    obtain ⟨rfl, rfl⟩ := ht'
    have hslot := hsound.free i hi off (by simp [hcons])
    have hal := hslot.aligned
    have hlt := hslot.lt_size
    simp only [Int.toNat_natCast] at hal hlt
    refine ⟨?_, fun j hj => rfl⟩
    rw [hlen]
    simp only [ChunkFileInfo.setFcl]
    omega

omit [DecidableEq K] [DecidableEq P] in
/-- The store still runs on its configuration once a block is written in a slot. -/
theorem Durable.running_write (h : s.Durable content doc) {i : ℕ} (hi : i < s.cfi.files)
    {cfi' : ChunkFileInfo} {off n : ℕ} (ht : s.cfi.takeSlot i = some (cfi', (off : ℤ)))
    (hn : s.os.ino (s.cfi.fds i) = some n) (hext : s.cfi.Extends cfi')
    (hlists : ∀ j < cfi'.files, (cfi'.fcls j).Ok) (block : Block) :
    Running (s.os.setContent n ((s.os.inodes n).pwrite block.val off)) cfi' doc := by
  obtain ⟨hsited, htotal, hfile, -⟩ := h.running
  have hfiles : s.cfi.files = (files doc).length := by simp [ChunkFileInfo.files, htotal]
  obtain ⟨f, hf⟩ : ∃ f, (files doc)[i]? = some f :=
    ⟨_, List.getElem?_eq_getElem (hfiles ▸ hi)⟩
  obtain ⟨m, hm, hlookup, hsize⟩ := hfile i f hf
  obtain rfl : m = n := by rwa [hm, Option.some.injEq] at hn
  have hmem : f.1 ∈ paths doc := List.mem_flatMap.2 ⟨f, List.mem_of_getElem? hf, by simp⟩
  obtain ⟨hcur, hother⟩ := h.curSize_takeSlot hi ht hsize.symm block
  have hsited' := (hsited.update hmem hlookup
    (s.os.setContent m ((s.os.inodes m).pwrite block.val off)) rfl rfl rfl hsited.sane.opened).1
  refine ⟨hsited', hext.total.trans htotal, fun j g hg => ?_, fun j hj => hlists j ?_⟩
  · obtain ⟨k, hk, hlookup', hsize'⟩ := hfile j g hg
    have hj : j < s.cfi.files := by
      rw [hfiles]
      exact (List.getElem?_eq_some_iff.1 hg).1
    refine ⟨k, by rw [Os.setContent_ino, hext.fds, hk], ?_, ?_⟩
    · rw [Os.lookup_congr (Os.setContent_names _ _ _), hlookup']
    · rw [Os.setContent_inodes]
      by_cases hji : j = i
      · subst hji
        obtain rfl : k = m := by rwa [hk, Option.some.injEq] at hm
        rw [hcur, update_self]
      · have hkm : k ≠ m := by
          rintro rfl
          exact hji (h.wellFormed.distinct j hj i hi (hk.trans hm.symm))
        rw [hother j hji, update_of_ne hkm, hsize']
  · rwa [hext.files_eq, hfiles]

/-! ## The operations -/

omit [DecidableEq P] in
theorem counts_update (s : Store K P) (key : K) (bd : BlockData) (cfi : ChunkFileInfo)
    (os : Os P) : (⟨cfi, update s.db key (some bd), os⟩ : Store K P).counts =
      update s.counts key (some bd.refCount) := by
  funext k
  by_cases hk : k = key
  · simp [counts, hk]
  · simp [counts, hk]

/-- A put does what it does on the map. -/
theorem Durable.put (h : s.Durable content doc) (whd : WriteHashDb K) {o : Outcome} {key : K}
    {block : Block} (hC : Regular content s (.put o key block)) :
    ∃ s' r, s.durableStep whd doc (.put o key block) = some (s', r) ∧
      countsStep content s.counts (.put o key block) = some (s'.counts, r) ∧
      s'.Durable content doc := by
  obtain ⟨hget, hpw, rfl, hroom, hfits⟩ := hC
  obtain ⟨s', ret, hput, hwf, hh, -, -, -⟩ :=
    putNewChunk_spec whd h.wellFormed h.holds hget hroom fun hk _ => by
      obtain ⟨i, hi, hpi, -⟩ := ChunkFileInfo.exists_file_of_ne (hroom hk)
      rw [hpi, Int.toNat_natCast]
      exact (h.sized i hi).1
  refine ⟨s', .code ret, by rw [durableStep, hput, Option.map_some], ?_⟩
  cases hk : s.db key with
  | some bd =>
    have hcounts : s.counts key = some bd.refCount := by rw [counts, hk, Option.map_some]
    rw [putNewChunk_present whd hget hk] at hput
    simp only [countsStep, hcounts]
    split_ifs at hput ⊢ with hdb
    · obtain ⟨rfl, rfl⟩ := Prod.mk.inj (Option.some.inj hput)
      refine ⟨?_, hwf, h.sized, hh, h.running⟩
      obtain ⟨h₁, h₂⟩ := hfits bd hk
      rw [counts_update, CInt.int32_of_range (by omega) (by omega)]
    · obtain ⟨rfl, rfl⟩ := Prod.mk.inj (Option.some.inj hput)
      exact ⟨rfl, h⟩
  | none =>
    have hcounts : s.counts key = none := by rw [counts, hk, Option.map_none]
    obtain ⟨i, hi, hpi, hcap⟩ := ChunkFileInfo.exists_file_of_ne (hroom hk)
    obtain ⟨cfi', off, n, ht, hn, hext, hput'⟩ :=
      putNewChunk_full whd h.wellFormed hget hpw hk hi hpi (h.sized i hi).1 (content key)
    rw [hput] at hput'
    obtain ⟨rfl, rfl⟩ := Prod.mk.inj (Option.some.inj hput')
    refine ⟨?_, hwf, h.sized.takeSlot h.wellFormed.sound hi hcap ht, hh,
      h.running_write hi ht hn hext hwf.sound.lists (content key)⟩
    simp only [countsStep, hcounts]
    split_ifs with hdb
    · rw [counts_update]
    · rfl

/-- `del_chunk` of a key that is present changes nothing. -/
theorem Durable.del (h : s.Durable content doc) (whd : WriteHashDb K) {o : Outcome} {key : K}
    (hC : Regular content s (.del o key)) :
    ∃ s' r, s.durableStep whd doc (.del o key) = some (s', r) ∧
      countsStep content s.counts (.del o key) = some (s'.counts, r) ∧
      s'.Durable content doc := by
  obtain ⟨hget, hpresent⟩ := hC
  obtain ⟨bd, hbd⟩ := Option.isSome_iff_exists.1 hpresent
  exact ⟨s, .code 0, by rw [durableStep, delChunk_present hget hbd, Option.map_some], rfl, h⟩

/-- Bytes inside a chunk. -/
theorem pread_pread {c : ByteFile} {m n a off : ℕ} (h : a + n ≤ m) :
    pread (pread c m off) n a = pread c n (off + a) := by
  simp only [pread, List.drop_take, List.drop_drop, List.take_take]
  congr 1
  omega

omit [DecidableEq K] [DecidableEq P] in
/-- A read that stays inside a block. -/
theorem WellFormed.blockRead_inside (hwf : s.WellFormed) (hh : s.Holds content) {o : Outcome}
    (hget : o.dbGet = 0) (hpread : o.pread = .full) (key : K) {size offset : ℕ}
    (hle : offset + size ≤ 4096) : s.blockRead o key size offset =
      (s.db key).map fun _ => pread (content key).val size offset := by
  cases hk : s.db key with
  | none => simp [blockRead, hget, dbGet_none hk, dbNotFound]
  | some bd =>
    have hslot := hwf.slot hk
    obtain ⟨n, hn⟩ : ∃ n, s.os.ino (s.cfi.fds bd.fdIndex.toNat) = some n :=
      hwf.opened _ hslot.index_lt_files
    have hcast : bd.offset + (offset : ℤ) = ((bd.offset.toNat + offset : ℕ) : ℤ) := by
      have := hslot.nonneg
      simp only [BlockData.location] at this
      omega
    have hchunk := (hwf.holds_iff content).1 hh key bd hk
    simp only [blockRead, hget, dbGet_some hk, hpread, hcast]
    rw [if_neg (by simp), Os.pread_full hn, ← hchunk, chunkAt, pread_pread hle, Option.map_some]

/-- A read returns the bytes of the block. -/
theorem Durable.read (h : s.Durable content doc) (whd : WriteHashDb K) {o : Outcome} {key : K}
    {size offset : ℕ} (hC : Regular content s (.read o key size offset)) :
    ∃ s' r, s.durableStep whd doc (.read o key size offset) = some (s', r) ∧
      countsStep content s.counts (.read o key size offset) = some (s'.counts, r) ∧
      s'.Durable content doc := by
  obtain ⟨hget, hpread, hle⟩ := hC
  refine ⟨s, _, rfl, ?_, h⟩
  rw [h.wellFormed.blockRead_inside h.holds hget hpread key hle]
  cases hk : s.db key <;> simp [countsStep, counts, hk]

/-! ## Shutdown and restart -/

end Store

/-- The invariant speaks of the sizes and of the entries on the free lists. -/
theorem ChunkFileInfo.Sound.congr {ι : Type*} {cfi cfi' : ChunkFileInfo}
    {loc : ι → Option Location} (h : cfi.Sound loc) (htotal : cfi'.total = cfi.total)
    (hsize : ∀ i < cfi.files, cfi'.curSize i = cfi.curSize i)
    (hok : ∀ i < cfi.files, (cfi'.fcls i).Ok)
    (hstack : ∀ i < cfi.files, (cfi'.fcls i).stack = (cfi.fcls i).stack) : cfi'.Sound loc := by
  have hfiles : cfi'.files = cfi.files := by rw [ChunkFileInfo.files, ChunkFileInfo.files, htotal]
  have hfree : ∀ i < cfi.files, cfi'.freeOffsets i = cfi.freeOffsets i := fun i hi => by
    rw [ChunkFileInfo.freeOffsets, hstack i hi, ChunkFileInfo.freeOffsets]
  have hslot : ∀ {l}, cfi.Slot l → cfi'.Slot l := by
    intro l hl
    refine ⟨hl.index_nonneg, ?_, hl.aligned, hl.nonneg, ?_⟩
    · rw [htotal]
      exact hl.index_lt
    · rw [hsize _ hl.index_lt_files]
      exact hl.lt_size
  refine ⟨?_, fun x l hx => hslot (h.held x l hx), h.inj, fun i hi o ho => ?_, fun i hi => ?_,
    fun x l hx => ?_⟩
  · rwa [hfiles]
  · rw [hfiles] at hi
    rw [hfree i hi] at ho
    exact hslot (h.free i hi o ho)
  · rw [hfiles] at hi
    rw [hfree i hi]
    exact h.nodup i hi
  · rw [hfree _ (h.held x l hx).index_lt_files]
    exact h.disjoint x l hx

namespace Store

variable {content : K → Block} {doc : List (XmlEvent P)} {s : Store K P}

omit [DecidableEq P] in
theorem sited_of_opens {os os' : Os P} {ps : List P} (h : os.Sited ps) (ho : os.Opens os') :
    os'.Sited ps := by
  refine ⟨⟨?_, ho.opened⟩, ?_, ?_⟩
  · rw [ho.names, ho.nextIno]
    exact h.sane.named
  · simp only [ho.names, ho.lookup]
    exact h.present
  · simp only [ho.lookup]
    exact h.inj

omit [DecidableEq K] in
/-- What a shutdown with its restart leaves. -/
theorem restart_spec (hrun : Running s.os s.cfi doc) (hdoc : TotalFirst doc)
    (hnd : (paths doc).Nodup) (env : InitEnv) (base : ChunkFileInfo) :
    ∃ cfi' os', s.restart doc env base = some ⟨cfi', s.db, os'⟩ ∧ cfi'.total = s.cfi.total ∧
      Running os' cfi' doc ∧ ∀ i < s.cfi.files, os'.ino (cfi'.fds i) = s.os.ino (s.cfi.fds i) ∧
        os'.content (cfi'.fds i) = s.os.content (s.cfi.fds i) ∧
        cfi'.curSize i = s.cfi.curSize i ∧ (cfi'.fcls i).Ok ∧
        (cfi'.fcls i).stack = (s.cfi.fcls i).stack := by
  have hps : ∀ f ∈ files doc, f.1 ∈ paths doc ∧ f.2 ∈ paths doc := fun f hf =>
    ⟨List.mem_flatMap.2 ⟨f, hf, by simp⟩, List.mem_flatMap.2 ⟨f, hf, by simp⟩⟩
  have hlen : s.cfi.files = (files doc).length := by simp [ChunkFileInfo.files, hrun.total]
  obtain ⟨hsnd, hfst⟩ := paths_nodup hnd
  -- shutdown
  obtain ⟨os₁, x₁, hrun₁, hs₁, hsaved, hframe⟩ :=
    release_spec doc (x := ⟨s.cfi, 0, 0, s.cfi.files⟩) hrun.sited (fun f hf => (hps f hf).2) hsnd
      (by simp [hlen]) (by simpa using hrun.lists)
  simp only [zero_add] at hsaved
  have hsame : ∀ (i : ℕ) (f : P × P) (n : ℕ), (files doc)[i]? = some f → s.os.lookup f.1 = some n →
      os₁.lookup f.1 = some n ∧ os₁.inodes n = s.os.inodes n := by
    intro i f n hf hn
    have hf' := List.mem_of_getElem? hf
    exact Os.fileAt_eq_some.1 ((hframe f.1 (hps f hf').1 (hfst f hf')).trans
      (Os.fileAt_eq_some.2 ⟨hn, rfl⟩))
  -- restart
  obtain ⟨os₂, cfi', hrun₂, ho, htot, hall⟩ := initChunkFile_spec env s.cfi.fcls hs₁.sane hdoc
    (fun i f hf => by
      obtain ⟨n, -, hn, -⟩ := hrun.file i f hf
      obtain ⟨hlt, -⟩ := List.getElem?_eq_some_iff.1 hf
      exact ⟨⟨n, (hsame i f n hf hn).1⟩, hrun.lists i hlt, hsaved i f hf⟩) base
  have hfile : ∀ i f, (files doc)[i]? = some f → ∃ n, os₂.ino (cfi'.fds i) = some n ∧
      s.os.ino (s.cfi.fds i) = some n ∧ os₂.lookup f.1 = some n ∧
      cfi'.curSize i = (os₂.inodes n).length ∧ s.cfi.curSize i = (s.os.inodes n).length ∧
      os₂.inodes n = s.os.inodes n := by
    intro i f hf
    obtain ⟨n, hino, hn, hsize⟩ := hrun.file i f hf
    obtain ⟨hn₁, hc₁⟩ := hsame i f n hf hn
    obtain ⟨m, hino', hm, hsize'⟩ := (hall i f hf).ino
    obtain rfl : n = m := by
      rw [ho.lookup, hn₁, Option.some.injEq] at hm
      exact hm
    exact ⟨n, hino', hino, hm, hsize', hsize, by rw [ho.inodes, hc₁]⟩
  have hget : ∀ i < s.cfi.files, ∃ f, (files doc)[i]? = some f := fun i hi =>
    ⟨_, List.getElem?_eq_getElem (hlen ▸ hi)⟩
  refine ⟨cfi', os₂, ?_, htot.trans hrun.total.symm,
    ⟨sited_of_opens hs₁ ho, htot, fun i f hf => ?_, fun i hi => ?_⟩, fun i hi => ?_⟩
  · simp only [restart, releaseChunkFile, hrun₁, Option.map_some, Option.bind_some, hrun₂]
  · obtain ⟨n, hino', -, hlookup, hsize', -⟩ := hfile i f hf
    exact ⟨n, hino', hlookup, hsize'⟩
  · obtain ⟨f, hf⟩ := hget i (hlen ▸ hi)
    exact (hall i f hf).ok
  · obtain ⟨f, hf⟩ := hget i hi
    obtain ⟨n, hino', hino, -, hsize', hsize, hc⟩ := hfile i f hf
    exact ⟨hino'.trans hino.symm, by simp only [Os.content, hino', hino, Option.map_some, hc],
      by rw [hsize', hsize, hc], (hall i f hf).ok, (hall i f hf).stack⟩

/-- A store that is started again is as good as it was. -/
theorem Durable.restart (h : s.Durable content doc) (hdoc : TotalFirst doc)
    (hnd : (paths doc).Nodup) (whd : WriteHashDb K) (env : InitEnv) (base : ChunkFileInfo) :
    ∃ s' r, s.durableStep whd doc (.restart env base) = some (s', r) ∧
      countsStep content s.counts (.restart env base) = some (s'.counts, r) ∧
      s'.Durable content doc := by
  obtain ⟨cfi', os', hrestart, htotal, hrun, hall⟩ := restart_spec h.running hdoc hnd env base
  have hfiles : cfi'.files = s.cfi.files := by
    rw [ChunkFileInfo.files, ChunkFileInfo.files, htotal]
  refine ⟨⟨cfi', s.db, os'⟩, .restarted, by rw [durableStep, hrestart, Option.map_some], rfl, ?_⟩
  have hwf : (⟨cfi', s.db, os'⟩ : Store K P).WellFormed := by
    refine ⟨h.wellFormed.sound.congr htotal (fun i hi => (hall i hi).2.2.1)
      (fun i hi => (hall i hi).2.2.2.1) (fun i hi => (hall i hi).2.2.2.2), fun i hi => ?_,
      fun i hi j hj hij => ?_⟩
    · rw [(hall i (hfiles ▸ hi)).1]
      exact h.wellFormed.opened i (hfiles ▸ hi)
    · rw [(hall i (hfiles ▸ hi)).1, (hall j (hfiles ▸ hj)).1] at hij
      exact h.wellFormed.distinct i (hfiles ▸ hi) j (hfiles ▸ hj) hij
  refine ⟨hwf, fun i hi => ?_, ?_, hrun⟩
  · rw [(hall i (hfiles ▸ hi)).2.2.1]
    exact h.sized i (hfiles ▸ hi)
  · rw [hwf.holds_iff]
    intro k bd hk
    have hslot : bd.fdIndex.toNat < s.cfi.files := (h.wellFormed.slot hk).index_lt_files
    have hcontent := (hall _ hslot).2.1
    rw [← (h.wellFormed.holds_iff content).1 h.holds k bd hk, chunkAt, hcontent, chunkAt]

/-- Each operation does what it does on the map. -/
theorem Durable.step (h : s.Durable content doc) (hdoc : TotalFirst doc) (hnd : (paths doc).Nodup)
    (whd : WriteHashDb K) {op : DurableOp K} (hC : Regular content s op) :
    ∃ s' r, s.durableStep whd doc op = some (s', r) ∧
      countsStep content s.counts op = some (s'.counts, r) ∧ s'.Durable content doc := by
  cases op with
  | put o key block => exact h.put whd hC
  | del o key => exact h.del whd hC
  | read o key size offset => exact h.read whd hC
  | restart env base => exact h.restart hdoc hnd whd env base

/-- Whatever the shutdowns between them, calls on a store return what they would on a map from keys
to counts. -/
theorem store_durable (whd : WriteHashDb K) (content : K → Block) {doc : List (XmlEvent P)}
    (hdoc : TotalFirst doc) (hnd : (paths doc).Nodup) {s : Store K P}
    (h : s.Durable content doc) {ops : List (DurableOp K)}
    (hC : Runs.Each (fun s op => (s.durableStep whd doc op).map Prod.fst) (Regular content) s ops) :
    ∃ s' rs, Runs.trace (durableStep whd doc) s ops = some (s', rs) ∧
      Runs.trace (countsStep content) s.counts ops = some (s'.counts, rs) ∧
      s'.Durable content doc := by
  exact Runs.trace_of_refines (I := fun s => s.Durable content doc)
    (fun s op hs hop => hs.step hdoc hnd whd hop) h hC

/-! ## One file -/

/-- An empty store with one chunk file, named `0`; the name of its free list is `1`. -/
def oneEmptyFile (K : Type*) : Store K ℕ where
  cfi := ⟨1, fun _ => 3, fun _ => 0, fun _ => .empty⟩
  db _ := none
  os :=
    { names := fun p => if p = 0 then some (.file 0) else none
      inodes := fun _ => []
      nextIno := 1
      fds := fun fd => if fd = 3 then some ⟨0, 0⟩ else none
      nextFd := 4 }

/-- Its configuration. -/
def oneFileDoc : List (XmlEvent ℕ) :=
  [.start .other, .start (.total 1), .finish, .start (.file 0 1), .finish, .finish]

theorem totalFirst_oneFileDoc : TotalFirst oneFileDoc := by
  simp [oneFileDoc, TotalFirst, NoTotal, files]

theorem nodup_oneFileDoc : (paths oneFileDoc).Nodup := by
  simp [oneFileDoc, paths, files]

omit [DecidableEq K] in
theorem durable_oneEmptyFile (content : K → Block) :
    (oneEmptyFile K).Durable content oneFileDoc := by
  have hlookup : (oneEmptyFile K).os.lookup 0 = some 0 := Os.lookup_file rfl
  have hone : (oneEmptyFile K).os.names 1 = none := rfl
  have hfree : (oneEmptyFile K).os.lookup 1 = none := by simp [Os.lookup, Os.resolve_none hone]
  have hino : (oneEmptyFile K).os.ino 3 = some 0 := rfl
  have hoff : ∀ i, (oneEmptyFile K).cfi.freeOffsets i = [] := fun _ => rfl
  have hfiles : ∀ i < (oneEmptyFile K).cfi.files, i = 0 := fun i hi => by
    have : (oneEmptyFile K).cfi.files = 1 := rfl
    omega
  refine ⟨⟨⟨fun _ _ => FreeChunkList.ok_empty, ?_, ?_, ?_, ?_, ?_⟩, fun _ _ => ⟨0, hino⟩,
    fun i hi j hj _ => (hfiles i hi).trans (hfiles j hj).symm⟩, fun i _ => ⟨rfl, Nat.zero_le _⟩,
    fun k hk => by simp [oneEmptyFile] at hk, ⟨⟨?_, ?_⟩, ?_, ?_⟩, rfl, fun i f hf => ?_,
    fun _ _ => FreeChunkList.ok_empty⟩
  · simp [oneEmptyFile, Db.loc]
  · simp [oneEmptyFile, Db.loc]
  · simp [hoff]
  · simp [hoff]
  · simp [hoff]
  · intro p n hp
    simp only [oneEmptyFile] at hp ⊢
    split_ifs at hp
    simp_all
  · intro fd f hf
    simp only [oneEmptyFile] at hf ⊢
    split_ifs at hf
    omega
  · simp [oneFileDoc, paths, files, hlookup, hone]
  · simp [oneFileDoc, paths, files, hlookup, hfree]
  · obtain ⟨rfl, rfl⟩ : i = 0 ∧ (0, 1) = f := by
      cases i with
      | zero => simpa [oneFileDoc, files] using hf
      | succ i => simp [oneFileDoc, files] at hf
    exact ⟨0, hino, hlookup, rfl⟩

/-- A block is read after a restart. -/
theorem store_durable_put_read :
    ∃ s' rs, Runs.trace (durableStep (.insert ℕ) oneFileDoc) (oneEmptyFile ℕ)
        [.put {} 7 (fillBlock 1), .restart ⟨fun _ _ _ => 0, fun _ => 0⟩ (oneEmptyFile ℕ).cfi,
          .read {} 7 2 5] = some (s', rs) ∧
      Runs.trace (countsStep fun _ => fillBlock 1) (oneEmptyFile ℕ).counts
        [.put {} 7 (fillBlock 1), .restart ⟨fun _ _ _ => 0, fun _ => 0⟩ (oneEmptyFile ℕ).cfi,
          .read {} 7 2 5] = some (s'.counts, rs) ∧
      s'.Durable (fun _ => fillBlock 1) oneFileDoc := by
  refine store_durable (.insert ℕ) (fun _ => fillBlock 1) totalFirst_oneFileDoc nodup_oneFileDoc
    (durable_oneEmptyFile _) ?_
  exact ⟨⟨rfl, rfl, rfl, fun _ => by decide, by simp [CountFits, oneEmptyFile]⟩, fun _ _ =>
    ⟨trivial, fun _ _ => ⟨⟨rfl, rfl, by decide⟩, fun _ _ => trivial⟩⟩⟩

end Store

end Agilefs
