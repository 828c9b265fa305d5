import Agilefs.Allocator

/-!
# Well-formed stores and what a put does to them

A store is well formed if the slots of its chunk files are soundly shared out among the
keys of the database (`ChunkFileInfo.Sound`) and its descriptors are open on distinct
files. `Holds content` says that `block_read` of each key present returns the block
`content` gives it.

`blockWrite_spec` is the rule for `block_write` under any outcome of its calls : the store
stays well formed, every chunk recorded keeps its bytes, and only a call that returns
`FSP_SIZE` records a new chunk, which reads back as the block written.
-/

namespace Agilefs

open CInt Posix Function ByteFile

/-- The content of a chunk. -/
abbrev Block := {b : List UInt8 // b.length = 4096}

variable {K P : Type*}

namespace Store

/-- The bytes a record leads to. -/
def chunkAt (s : Store K P) (bd : BlockData) : List UInt8 :=
  (s.os.content (s.cfi.fds bd.fdIndex.toNat)).pread 4096 bd.offset.toNat

/-- The well-formedness of a store. -/
structure WellFormed (s : Store K P) : Prop where
  sound : s.cfi.Sound s.db.loc
  opened : ∀ i < s.cfi.files, ∃ n, s.os.ino (s.cfi.fds i) = some n
  distinct : ∀ i < s.cfi.files, ∀ j < s.cfi.files,
    s.os.ino (s.cfi.fds i) = s.os.ino (s.cfi.fds j) → i = j

/-- `block_read` of each key present returns its block. -/
def Holds (content : K → Block) (s : Store K P) : Prop :=
  ∀ k, (s.db k).isSome → s.blockRead {} k fspSize 0 = some (content k).val

theorem WellFormed.slot {s : Store K P} (h : s.WellFormed) {k : K} {bd : BlockData}
    (hk : s.db k = some bd) : s.cfi.Slot bd.location :=
  h.sound.held k _ (Db.loc_eq_some.2 ⟨bd, hk, rfl⟩)

theorem WellFormed.blockRead_eq {s : Store K P} (h : s.WellFormed) {k : K} {bd : BlockData}
    (hk : s.db k = some bd) : s.blockRead {} k fspSize 0 = some (s.chunkAt bd) := by
  obtain ⟨n, hn⟩ := h.opened _ (h.slot hk).index_lt_files
  have hpos : 0 ≤ bd.offset := (h.slot hk).nonneg
  have hcast : bd.offset + 0 = ((bd.offset.toNat : ℕ) : ℤ) := by omega
  simp only [blockRead, dbGet_some hk, hcast]
  rw [if_neg (by simp)]
  exact Os.pread_full hn fspSize _

theorem WellFormed.holds_iff {s : Store K P} (h : s.WellFormed) (content : K → Block) :
    s.Holds content ↔ ∀ k bd, s.db k = some bd → s.chunkAt bd = (content k).val := by
  constructor
  · intro hh k bd hk
    have := hh k (by simp [hk])
    rwa [h.blockRead_eq hk, Option.some.injEq] at this
  · intro hh k hk
    obtain ⟨bd, hbd⟩ := Option.isSome_iff_exists.1 hk
    rw [h.blockRead_eq hbd, hh k bd hbd]

/-- A store with `n` empty chunk files and no key. -/
def empty (n : ℕ) : Store K P where
  cfi := ⟨n, fun i => i + 3, fun _ => 0, fun _ => .empty⟩
  db := fun _ => none
  os :=
    { names := fun _ => none
      inodes := fun _ => []
      nextIno := n
      fds := fun fd => if 3 ≤ fd ∧ fd < n + 3 then some ⟨(fd - 3).toNat, 0⟩ else none
      nextFd := n + 3 }

/-- A block of one byte repeated. -/
def fillBlock (b : UInt8) : Block := ⟨List.replicate 4096 b, List.length_replicate⟩

theorem empty_ino {n i : ℕ} (hi : i < n) :
    (empty n : Store K P).os.ino ((empty n : Store K P).cfi.fds i) = some i := by
  simp [empty, Os.ino, hi]

theorem wellFormed_empty (n : ℕ) : (empty n : Store K P).WellFormed := by
  have hfree : ∀ i, (empty n : Store K P).cfi.freeOffsets i = [] := fun _ => rfl
  refine ⟨⟨fun _ _ => FreeChunkList.ok_empty, ?_, ?_, ?_, ?_, ?_⟩, ?_, ?_⟩
  · simp [empty, Db.loc]
  · simp [empty, Db.loc]
  · simp [hfree]
  · simp [hfree]
  · simp [hfree]
  · exact fun i hi => ⟨i, empty_ino hi⟩
  · intro i hi j hj h
    rw [empty_ino (n := n) hi, empty_ino (n := n) hj] at h
    exact Option.some.inj h

theorem holds_empty (content : K → Block) (n : ℕ) : (empty n : Store K P).Holds content :=
  fun _ hk => by simp [empty] at hk

/-! ## Writing a slot -/

section Write

variable {s : Store K P} {cfi : ChunkFileInfo} {i : ℕ} {off : ℤ} (t : Transfer)
  (d : List UInt8)

/-- A write of one chunk leaves the chunks at all other locations alone. -/
theorem chunkAt_pwrite (hwf : s.WellFormed) (hd : d.length ≤ 4096) (hi : i < s.cfi.files)
    (hoff : 0 ≤ off) (hal : off % 4096 = 0) {bd : BlockData} (hslot : s.cfi.Slot bd.location)
    (hlen : (s.chunkAt bd).length = 4096) (hne : bd.location ≠ ((i : ℤ), off)) {db : Db K}
    (hfds : cfi.fds = s.cfi.fds) :
    (⟨cfi, db, (s.os.pwrite t (s.cfi.fds i) d off).1⟩ : Store K P).chunkAt bd =
      s.chunkAt bd := by
  obtain ⟨n, hn⟩ := hwf.opened i hi
  obtain ⟨m, hm⟩ := hwf.opened _ hslot.index_lt_files
  have hcast : ((off.toNat : ℕ) : ℤ) = off := by omega
  obtain ⟨c, hc, -⟩ := Os.pwrite_spec (t := t) hn d off.toNat
  rw [hcast] at hc
  have hm' : (s.cfi.fds bd.fdIndex.toNat) = s.cfi.fds bd.location.1.toNat := rfl
  simp only [chunkAt, Os.content, hfds, Os.pwrite_ino, hm', hm, Option.map_some,
    Option.getD_some, hc] at hlen ⊢
  by_cases hmn : m = n
  · -- the same file : the two offsets are distinct multiples of the chunk size
    have hij : bd.location.1.toNat = i :=
      hwf.distinct _ hslot.index_lt_files i hi (by rw [hm, hn, hmn])
    have hoffs : bd.offset ≠ off := by
      intro h
      have := hslot.index_nonneg
      exact hne (Prod.ext (by omega) h)
    have hbal : bd.offset % 4096 = 0 := hslot.aligned
    have hbpos : 0 ≤ bd.offset := hslot.nonneg
    have hcl : (d.take c).length ≤ 4096 := by simp; omega
    subst hmn
    rw [update_self]
    rcases lt_or_gt_of_ne hoffs with hlt | hgt
    · rw [length_pread] at hlen
      exact pread_pwrite_of_le _ _ (by omega) (by omega)
    · exact pread_pwrite_of_ge _ _ (by omega)
  · rw [update_of_ne hmn]

/-- A complete write of one chunk is read back. -/
theorem chunkAt_pwrite_self (hwf : s.WellFormed) (hi : i < s.cfi.files) (hoff : 0 ≤ off)
    (hd : d.length = 4096) (hret : (s.os.pwrite t (s.cfi.fds i) d off).2 = 4096) {db : Db K}
    (hfds : cfi.fds = s.cfi.fds) (rc : ℤ) :
    (⟨cfi, db, (s.os.pwrite t (s.cfi.fds i) d off).1⟩ : Store K P).chunkAt ⟨i, rc, off⟩ = d := by
  obtain ⟨n, hn⟩ := hwf.opened i hi
  have hcast : ((off.toNat : ℕ) : ℤ) = off := by omega
  obtain ⟨c, hc, hfull⟩ := Os.pwrite_spec (t := t) hn d off.toNat
  rw [hcast] at hc hfull
  have hdc := hfull (by omega)
  simp only [chunkAt, Os.content, hfds, Os.pwrite_ino, Int.toNat_natCast, hn, Option.map_some,
    Option.getD_some, hc, update_self, hdc]
  rw [← hd, pread_pwrite_self]

end Write

/-! ## The operations on a well-formed store -/

theorem WellFormed.of_cfi {s : Store K P} (h : s.WellFormed) {cfi : ChunkFileInfo} {db : Db K}
    {os : Os P} (hsound : cfi.Sound db.loc) (hext : s.cfi.Extends cfi)
    (hino : ∀ fd, os.ino fd = s.os.ino fd) : (⟨cfi, db, os⟩ : Store K P).WellFormed := by
  refine ⟨hsound, ?_, ?_⟩
  · simp only [hext.files_eq, hext.fds, hino]
    exact h.opened
  · simp only [hext.files_eq, hext.fds, hino]
    exact h.distinct

variable [DecidableEq K] {whd : WriteHashDb K} {o : Outcome} {s : Store K P}

/-- `block_write` once its file and its slot are found. -/
theorem blockWrite_eq {i : ℕ} {cfi : ChunkFileInfo} {off : ℤ}
    (hp : s.cfi.getProperChunkFile = i) (ht : s.cfi.takeSlot i = some (cfi, off)) (key : K)
    {d : List UInt8} (hd : d.length = fspSize) :
    s.blockWrite whd o key d fspSize =
      let os := (s.os.pwrite o.pwrite (cfi.fds i) d off).1
      let ret := (s.os.pwrite o.pwrite (cfi.fds i) d off).2
      if ret = fspSize then
        if o.writeHashDb = 0 then
          some (⟨cfi, update s.db key (some ⟨i, 1, off⟩), os⟩, (fspSize : ℤ))
        else some (⟨cfi, s.db, os⟩, -1)
      else some (⟨cfi, s.db, os⟩, ret) := by
  have htake : d.take fspSize = d := List.take_of_length_le hd.le
  simp only [blockWrite, hp, if_neg (by omega : ¬(i : ℤ) < 0), Int.toNat_natCast, ht,
    Option.map_some, htake, whd.spec]
  split_ifs <;> simp_all

/-- The rule for `block_write`, whatever its calls do. -/
theorem blockWrite_spec (whd : WriteHashDb K) (o : Outcome) (hwf : s.WellFormed) {i : ℕ}
    (hi : i < s.cfi.files)
    (hp : s.cfi.getProperChunkFile = i)
    (hal : s.cfi.freeOffsets i = [] → s.cfi.curSize i % 4096 = 0) (key : K) (d : Block) :
    ∃ s' ret, s.blockWrite whd o key d.val fspSize = some (s', ret) ∧ s'.WellFormed ∧
      s.cfi.Extends s'.cfi ∧ (∃ off, s.cfi.takeSlot i = some (s'.cfi, off)) ∧
      (∀ k bd, s.db k = some bd → (s.chunkAt bd).length = 4096 →
        s'.chunkAt bd = s.chunkAt bd) ∧
      ((ret = fspSize ∧ ∃ bd : BlockData, bd.refCount = 1 ∧
          s'.db = update s.db key (some bd) ∧ s'.chunkAt bd = d.val) ∨
        (ret ≠ fspSize ∧ (o.pwrite = .full → o.writeHashDb ≠ 0) ∧ s'.db = s.db)) := by
  obtain ⟨cfi, off, ht, hsound, hvac, hext⟩ := hwf.sound.takeSlot hi hal
  have hal' : off % 4096 = 0 := hvac.slot.aligned
  have hoff : 0 ≤ off := hvac.slot.nonneg
  have hino : ∀ fd, (s.os.pwrite o.pwrite (cfi.fds i) d.val off).1.ino fd = s.os.ino fd :=
    fun fd => Os.pwrite_ino _ _ _ _ _ _
  have hframe : ∀ db : Db K, ∀ k bd, s.db k = some bd → (s.chunkAt bd).length = 4096 →
      (⟨cfi, db, (s.os.pwrite o.pwrite (cfi.fds i) d.val off).1⟩ : Store K P).chunkAt bd =
        s.chunkAt bd := by
    intro db k bd hk hlen
    rw [hext.fds]
    refine chunkAt_pwrite o.pwrite d.val hwf d.property.le hi hoff hal' (hwf.slot hk) hlen
      (fun h => hvac.not_held k ?_) hext.fds
    exact Db.loc_eq_some.2 ⟨bd, hk, h⟩
  have hfull : o.pwrite = .full → (s.os.pwrite o.pwrite (cfi.fds i) d.val off).2 = fspSize := by
    intro hpw
    obtain ⟨n, hn⟩ := hwf.opened i hi
    have hcast : ((off.toNat : ℕ) : ℤ) = off := by omega
    rw [hpw, hext.fds, ← hcast, Os.pwrite_full hn, d.property]
    rfl
  rw [blockWrite_eq hp ht key d.property]
  by_cases hret : (s.os.pwrite o.pwrite (cfi.fds i) d.val off).2 = fspSize
  · by_cases hw : o.writeHashDb = 0
    · refine ⟨⟨cfi, update s.db key (some ⟨i, 1, off⟩), _⟩, fspSize,
        by simp only [if_pos hret, if_pos hw], ?_, hext, ⟨off, ht⟩, hframe _,
        Or.inl ⟨rfl, ⟨i, 1, off⟩, rfl, rfl, ?_⟩⟩
      · refine hwf.of_cfi ?_ hext hino
        rw [Db.loc_update]
        exact hsound.hold hvac key
      · rw [hext.fds] at hret ⊢
        exact chunkAt_pwrite_self _ _ hwf hi hoff d.property hret hext.fds 1
    · exact ⟨⟨cfi, s.db, _⟩, -1, by simp only [if_pos hret, if_neg hw],
        hwf.of_cfi hsound hext hino, hext, ⟨off, ht⟩, hframe _,
        Or.inr ⟨by simp [fspSize], fun _ => hw, rfl⟩⟩
  · exact ⟨⟨cfi, s.db, _⟩, _, if_neg hret, hwf.of_cfi hsound hext hino, hext, ⟨off, ht⟩,
      hframe _, Or.inr ⟨hret, fun h => (hret (hfull h)).elim, rfl⟩⟩

/-- Counting one more reference moves nothing. -/
theorem WellFormed.put_present (hwf : s.WellFormed) {key : K} {bd bd' : BlockData}
    (hk : s.db key = some bd) (hloc : bd'.location = bd.location) :
    ({ s with db := update s.db key (some bd') } : Store K P).WellFormed := by
  have hdb : Db.loc (update s.db key (some bd')) = s.db.loc := by
    rw [Db.loc_update, hloc]
    exact update_eq_self_iff.2 (Db.loc_eq_some.2 ⟨bd, hk, rfl⟩).symm
  refine ⟨?_, hwf.opened, hwf.distinct⟩
  rw [hdb]
  exact hwf.sound

/-! ## The counts -/

/-- The references counted for a key, `0` if it is absent. -/
def refCount (s : Store K P) (k : K) : ℤ :=
  ((s.db k).map BlockData.refCount).getD 0

/-- A put of `key` that returned `ret` counts one reference if `ret` is `0`, and changes no
other record. -/
structure Counted (s s' : Store K P) (key : K) (ret : ℤ) : Prop where
  isSome : ∀ k, (s'.db k).isSome ↔ (s.db k).isSome ∨ (k = key ∧ ret = 0)
  refCount : ∀ k, s'.refCount k = s.refCount k + if k = key ∧ ret = 0 then 1 else 0

theorem Counted.of_insert {s s' : Store K P} {key : K} {bd : BlockData} (hk : s.db key = none)
    (hbd : bd.refCount = 1) (hdb : s'.db = update s.db key (some bd)) : Counted s s' key 0 := by
  constructor <;> intro k <;> by_cases h : k = key
  · simp [hdb, h]
  · simp [hdb, h]
  · simp [Store.refCount, hdb, h, hk, hbd]
  · simp [Store.refCount, hdb, h]

theorem Counted.of_increment {s s' : Store K P} {key : K} {bd bd' : BlockData}
    (hk : s.db key = some bd) (hbd : bd'.refCount = bd.refCount + 1)
    (hdb : s'.db = update s.db key (some bd')) : Counted s s' key 0 := by
  constructor <;> intro k <;> by_cases h : k = key
  · simp [hdb, h, hk]
  · simp [hdb, h]
  · simp [Store.refCount, hdb, h, hk, hbd]
  · simp [Store.refCount, hdb, h]

theorem Counted.of_eq {s s' : Store K P} {key : K} {ret : ℤ} (hret : ret ≠ 0)
    (hdb : s'.db = s.db) : Counted s s' key ret := by
  constructor <;> intro k
  · simp [hdb, hret]
  · simp [Store.refCount, hdb, hret]

/-- A put of `key` does not overflow its count. -/
def CountFits (s : Store K P) (key : K) : Prop :=
  ∀ bd, s.db key = some bd → -2 ^ 31 ≤ bd.refCount ∧ bd.refCount + 1 < 2 ^ 31

/-- `block_write` took a slot in the file found by the search, or nothing was allocated. -/
def Allocated (s s' : Store K P) : Prop :=
  s'.cfi = s.cfi ∨ ∃ i < s.cfi.files, s.cfi.getProperChunkFile = i ∧
    s.cfi.capcity i < 0xffffffff ∧ ∃ off, s.cfi.takeSlot i = some (s'.cfi, off)

/-- The rule for `put_new_chunk`, whatever its calls do : the store stays well formed and
keeps every block, and a put that returns `0` counts one reference. -/
theorem putNewChunk_spec (whd : WriteHashDb K) {content : K → Block} (hwf : s.WellFormed)
    (hh : s.Holds content)
    {key : K} (ho : o.dbGet = 0) (hp : s.db key = none → s.cfi.getProperChunkFile ≠ -1)
    (hal : s.db key = none → s.cfi.freeOffsets s.cfi.getProperChunkFile.toNat = [] →
      s.cfi.curSize s.cfi.getProperChunkFile.toNat % 4096 = 0) :
    ∃ s' ret, s.putNewChunk whd o key (content key).val fspSize = some (s', ret) ∧
      s'.WellFormed ∧ s'.Holds content ∧ s.cfi.Extends s'.cfi ∧ Allocated s s' ∧
      (o.Succeeds → ret = 0) ∧ (s.CountFits key → Counted s s' key ret) := by
  rw [hwf.holds_iff] at hh
  cases hk : s.db key with
  | some bd =>
    rw [putNewChunk_present whd ho hk]
    by_cases hput : o.dbPut = 0
    · rw [if_pos hput]
      set bd' : BlockData := { bd with refCount := int32 (bd.refCount + 1) }
      have hwf' : ({ s with db := update s.db key (some bd') } : Store K P).WellFormed :=
        hwf.put_present hk rfl
      refine ⟨_, _, rfl, hwf', ?_, ⟨rfl, rfl, fun _ => le_rfl⟩, Or.inl rfl, fun _ => rfl,
        fun hfit => ?_⟩
      · rw [hwf'.holds_iff]
        intro k bd' hk'
        by_cases h : k = key
        · subst h
          obtain rfl : _ = bd' := by simpa using hk'
          exact hh k bd hk
        · exact hh k bd' (by simpa [h] using hk')
      · obtain ⟨h₁, h₂⟩ := hfit bd hk
        exact Counted.of_increment hk (int32_of_range (by omega) (by omega)) rfl
    · rw [if_neg hput]
      refine ⟨s, -1, rfl, hwf, ?_, ⟨rfl, rfl, fun _ => le_rfl⟩, Or.inl rfl,
        fun h => (hput h.dbPut).elim, fun _ => Counted.of_eq (by omega) rfl⟩
      exact (hwf.holds_iff content).2 hh
  | none =>
    obtain ⟨i, hi, hpi, hcap⟩ := ChunkFileInfo.exists_file_of_ne (hp hk)
    obtain ⟨s', ret, hbw, hwf', hext, htake, hframe, hres⟩ :=
      blockWrite_spec whd o hwf hi hpi (by simpa [hpi] using hal hk) key (content key)
    rw [putNewChunk_absent whd ho hk, hbw]
    have hkeep : ∀ k bd, s.db k = some bd → s'.chunkAt bd = (content k).val := by
      intro k bd hkb
      rw [hframe k bd hkb (by rw [hh k bd hkb]; exact (content k).property), hh k bd hkb]
    have halloc : Allocated s s' := Or.inr ⟨i, hi, hpi, hcap, htake⟩
    rcases hres with ⟨rfl, bd, hrc, hdb, hchunk⟩ | ⟨hret, hfail, hdb⟩
    · refine ⟨_, _, rfl, hwf', ?_, hext, halloc, fun _ => if_pos rfl, fun _ => ?_⟩
      · rw [hwf'.holds_iff]
        intro k bd' hk'
        rw [hdb] at hk'
        by_cases h : k = key
        · subst h
          obtain rfl : bd = bd' := by simpa using hk'
          exact hchunk
        · exact hkeep k bd' (by simpa [h] using hk')
      · rw [if_pos rfl]
        exact Counted.of_insert hk hrc hdb
    · refine ⟨_, _, rfl, hwf', ?_, hext, halloc, fun h => (hfail h.pwrite h.writeHashDb).elim,
        fun _ => ?_⟩
      · rw [hwf'.holds_iff, hdb]
        exact hkeep
      · rw [if_neg hret]
        exact Counted.of_eq (by omega) hdb

end Store

end Agilefs
