import Agilefs.FreeList
import Agilefs.Posix

/-!
# The chunk store

`server/chunks-io.c` and `server/db_ops.c` : 4096-byte chunks named by their key, kept in
a few large chunk files, with one database record per key that says where its chunk is
and how often it is referenced.

The database is a finite map (`Db`), and `write_hash_db`, which is not in the repository,
is a parameter with its contract (`WriteHashDb`). `Outcome` fixes how the calls one
operation makes to the database, the file system and `malloc` end. An operation is `none`
where the source aborts in an assertion or accesses memory outside its arrays.
-/

namespace Agilefs

open CInt Posix Function

/-! ## The database -/

/-- `struct block_data`. -/
structure BlockData where
  fdIndex : ℤ
  refCount : ℤ
  offset : ℤ
  deriving DecidableEq

/-- The record `{ 0 }`. -/
def BlockData.zero : BlockData := ⟨0, 0, 0⟩

/-- The hash database : the record of each key present. -/
abbrev Db (K : Type*) := K → Option BlockData

/-- `DB_NOTFOUND`. -/
def dbNotFound : ℤ := -30988

/-- How the calls made by one operation end. A return code other than `0` is a failure
that changes nothing; `malloc` is the page it returns, `none` if it fails. -/
structure Outcome where
  dbGet : ℤ := 0
  dbPut : ℤ := 0
  dbDel : ℤ := 0
  writeHashDb : ℤ := 0
  pwrite : Transfer := .full
  pread : Transfer := .full
  malloc : Option Page := some fun _ => 0

/-- Every call succeeds. The page a `malloc` returns may hold anything. -/
structure Outcome.Succeeds (o : Outcome) : Prop where
  dbGet : o.dbGet = 0
  dbPut : o.dbPut = 0
  dbDel : o.dbDel = 0
  writeHashDb : o.writeHashDb = 0
  pwrite : o.pwrite = .full
  malloc : o.malloc.isSome

theorem Outcome.succeeds_default : ({} : Outcome).Succeeds :=
  ⟨rfl, rfl, rfl, rfl, rfl, rfl⟩

variable {K P : Type*}

/-- `db_get` : the return code and the record, which stays zero unless the key is found. -/
def dbGet (rc : ℤ) (db : Db K) (key : K) : ℤ × BlockData :=
  if rc ≠ 0 then (rc, .zero)
  else match db key with
    | some bd => (0, bd)
    | none => (dbNotFound, .zero)

variable [DecidableEq K]

/-- `db_put`. -/
def dbPut (rc : ℤ) (db : Db K) (key : K) (bd : BlockData) : Db K × ℤ :=
  if rc ≠ 0 then (db, rc) else (update db key (some bd), 0)

/-- `db_del`. -/
def dbDel (rc : ℤ) (db : Db K) (key : K) : Db K × ℤ :=
  if rc ≠ 0 then (db, rc)
  else if (db key).isSome then (update db key none, 0) else (db, dbNotFound)

/-- `write_hash_db(key, offset, f_index)` and its contract : with the return code `0` it
inserts a record with one reference, otherwise it changes nothing. -/
structure WriteHashDb (K : Type*) [DecidableEq K] where
  run : ℤ → Db K → K → ℤ → ℤ → Db K × ℤ
  spec : ∀ rc db key offset f, run rc db key offset f =
    if rc ≠ 0 then (db, rc) else (update db key (some ⟨f, 1, offset⟩), 0)

/-- The function the contract describes. -/
def WriteHashDb.insert (K : Type*) [DecidableEq K] : WriteHashDb K where
  run rc db key offset f := dbPut rc db key ⟨f, 1, offset⟩
  spec _ _ _ _ _ := rfl

/-! ## The chunk files -/

/-- `struct chunk_file_info`. The arrays have `total` elements. -/
structure ChunkFileInfo where
  total : ℤ
  fds : ℕ → ℤ
  curSize : ℕ → ℕ
  fcls : ℕ → FreeChunkList

/-- `FSP_SIZE`, the size of a chunk. -/
def fspSize : ℕ := 4096

/-- `MAX_CHUNK_FILE_SIZE`. -/
def maxChunkFileSize : ℤ := 2 ^ 32

namespace ChunkFileInfo

/-- The number of elements of the arrays. -/
def files (cfi : ChunkFileInfo) : ℕ := cfi.total.toNat

/-- The space in use in file `i`, as `get_proper_chunk_file` computes it. -/
def capcity (cfi : ChunkFileInfo) (i : ℕ) : ℤ :=
  let current := (cfi.fcls i).current
  let free : ℤ := if current = -1 then 0 else current <<< (12 : ℕ)
  cfi.curSize i - free

/-- One iteration of the search; the state is `(__min, ret)`. -/
def properStep (cfi : ChunkFileInfo) (acc : ℤ × ℤ) (i : ℕ) : ℤ × ℤ :=
  if cfi.capcity i < maxChunkFileSize ∧ acc.1 > cfi.capcity i then (cfi.capcity i, i) else acc

/-- `get_proper_chunk_file`. -/
def getProperChunkFile (cfi : ChunkFileInfo) : ℤ :=
  ((List.range cfi.files).foldl cfi.properStep (0xffffffff, -1)).2

/-- File `i` with another free list. -/
def setFcl (cfi : ChunkFileInfo) (i : ℕ) (fcl : FreeChunkList) : ChunkFileInfo :=
  { cfi with fcls := update cfi.fcls i fcl }

/-- File `i` longer by one chunk. -/
def grow (cfi : ChunkFileInfo) (i : ℕ) : ChunkFileInfo :=
  { cfi with curSize := update cfi.curSize i (cfi.curSize i + fspSize) }

@[simp] theorem setFcl_fcls (cfi : ChunkFileInfo) (i j : ℕ) (fcl : FreeChunkList) :
    (cfi.setFcl i fcl).fcls j = if j = i then fcl else cfi.fcls j := by
  by_cases hj : j = i
  · simp [setFcl, hj]
  · simp [setFcl, hj]

@[simp] theorem setFcl_self (cfi : ChunkFileInfo) (i : ℕ) : cfi.setFcl i (cfi.fcls i) = cfi := by
  simp [setFcl]

@[simp] theorem grow_curSize (cfi : ChunkFileInfo) (i j : ℕ) :
    (cfi.grow i).curSize j = if j = i then cfi.curSize i + 4096 else cfi.curSize j := by
  by_cases hj : j = i
  · simp [grow, hj, fspSize]
  · simp [grow, hj]

/-- The lines of `block_write` that find the offset for a new chunk in file `i` : a slot off
the free list, or the end of the file. -/
def takeSlot (cfi : ChunkFileInfo) (i : ℕ) : Option (ChunkFileInfo × ℤ) :=
  (cfi.fcls i).getFirstFreeChunk.map fun (fcl, ret) =>
    if ret = -1 then ((cfi.setFcl i fcl).grow i, (cfi.curSize i : ℤ))
    else (cfi.setFcl i fcl, ret <<< (12 : ℕ))

end ChunkFileInfo

/-! ## The operations -/

/-- The store : `cfi`, the hash database and the file system with the chunk files. -/
structure Store (K P : Type*) where
  cfi : ChunkFileInfo
  db : Db K
  os : Os P

namespace Store

/-- `block_write`. `none` is the failed assertion. -/
def blockWrite (whd : WriteHashDb K) (o : Outcome) (key : K) (buf : List UInt8) (size : ℕ)
    (s : Store K P) : Option (Store K P × ℤ) :=
  let fdIndex := s.cfi.getProperChunkFile
  if fdIndex < 0 then none
  else (s.cfi.takeSlot fdIndex.toNat).map fun (cfi, offset) =>
    let (os, ret) := s.os.pwrite o.pwrite (cfi.fds fdIndex.toNat) (buf.take size) offset
    if ret = fspSize then
      let (db, x) := whd.run o.writeHashDb s.db key offset fdIndex
      (⟨cfi, db, os⟩, if x ≠ 0 then -1 else ret)
    else (⟨cfi, s.db, os⟩, ret)

/-- `block_read` : the bytes read, `none` for the return value `-1`. -/
def blockRead (o : Outcome) (key : K) (size : ℕ) (offset : ℤ) (s : Store K P) :
    Option (List UInt8) :=
  let (ret, bd) := dbGet o.dbGet s.db key
  if ret ≠ 0 then none
  else s.os.pread o.pread (s.cfi.fds bd.fdIndex.toNat) size (bd.offset + offset)

/-- `put_new_chunk`. -/
def putNewChunk (whd : WriteHashDb K) (o : Outcome) (key : K) (buf : List UInt8) (size : ℕ)
    (s : Store K P) : Option (Store K P × ℤ) :=
  let (ret, bd) := dbGet o.dbGet s.db key
  if ret ≠ 0 then
    (s.blockWrite whd o key buf size).map fun (s, ret) => (s, if ret = fspSize then 0 else -1)
  else
    let (db, ret) := dbPut o.dbPut s.db key { bd with refCount := int32 (bd.refCount + 1) }
    some ({ s with db }, if ret ≠ 0 then -1 else ret)

/-- `del_chunk`. -/
def delChunk (o : Outcome) (key : K) (s : Store K P) : Option (Store K P × ℤ) :=
  let (ret, bd) := dbGet o.dbGet s.db key
  if ret ≠ 0 then
    if bd.refCount > 1 then
      let (db, ret) := dbPut o.dbPut s.db key { bd with refCount := int32 (bd.refCount - 1) }
      some ({ s with db }, ret)
    else
      let i := bd.fdIndex.toNat
      ((s.cfi.fcls i).addFreeChunk (int32 (uint32 (bd.offset >>> (12 : ℕ)))) o.malloc).map
        fun (fcl, _) =>
          let (db, ret) := dbDel o.dbDel s.db key
          (⟨s.cfi.setFcl i fcl, db, s.os⟩, ret)
  else some (s, ret)

end Store

/-! ## What each operation does -/

omit [DecidableEq K] in
theorem dbGet_some {db : Db K} {key : K} {bd : BlockData} (h : db key = some bd) :
    dbGet 0 db key = (0, bd) := by
  simp [dbGet, h]

omit [DecidableEq K] in
theorem dbGet_none {db : Db K} {key : K} (h : db key = none) :
    dbGet 0 db key = (dbNotFound, .zero) := by
  simp [dbGet, h]

namespace ChunkFileInfo

/-- The search after the first `n` files : nothing below the first limit, or the first of the
files with the least space in use. -/
theorem foldl_properStep (cfi : ChunkFileInfo) : ∀ n : ℕ,
    ((List.range n).foldl cfi.properStep (0xffffffff, -1) = (0xffffffff, -1) ∧
      ∀ j < n, 0xffffffff ≤ cfi.capcity j) ∨
    ∃ i < n, (List.range n).foldl cfi.properStep (0xffffffff, -1) = (cfi.capcity i, (i : ℤ)) ∧
      cfi.capcity i < 0xffffffff ∧ (∀ j < n, cfi.capcity i ≤ cfi.capcity j) ∧
      ∀ j < i, cfi.capcity i < cfi.capcity j
  | 0 => Or.inl ⟨rfl, by simp⟩
  | n + 1 => by
    rw [List.range_succ, List.foldl_append, List.foldl_cons, List.foldl_nil]
    rcases foldl_properStep cfi n with ⟨hacc, hall⟩ | ⟨i, hi, hacc, hlt, hmin, hfirst⟩
    · rw [hacc, properStep]
      split_ifs with hc
      · simp only [maxChunkFileSize] at hc
        refine Or.inr ⟨n, by omega, rfl, hc.2, fun j hj => ?_, fun j hj => ?_⟩
        · rcases Nat.lt_succ_iff_lt_or_eq.1 hj with hj | rfl
          · exact (hc.2.trans_le (hall j hj)).le
          · exact le_rfl
        · exact hc.2.trans_le (hall j hj)
      · simp only [maxChunkFileSize] at hc
        refine Or.inl ⟨rfl, fun j hj => ?_⟩
        rcases Nat.lt_succ_iff_lt_or_eq.1 hj with hj | rfl
        · exact hall j hj
        · omega
    · rw [hacc, properStep]
      split_ifs with hc
      · simp only at hc
        refine Or.inr ⟨n, by omega, rfl, hc.2.trans hlt, fun j hj => ?_, fun j hj => ?_⟩
        · rcases Nat.lt_succ_iff_lt_or_eq.1 hj with hj | rfl
          · exact (hc.2.trans_le (hmin j hj)).le
          · exact le_rfl
        · exact hc.2.trans_le (hmin j hj)
      · simp only [maxChunkFileSize] at hc
        refine Or.inr ⟨i, by omega, rfl, hlt, fun j hj => ?_, hfirst⟩
        rcases Nat.lt_succ_iff_lt_or_eq.1 hj with hj | rfl
        · exact hmin j hj
        · omega

/-- The search returns `-1` or the index of a file with less than 4 GB in use. -/
theorem getProperChunkFile_cases (cfi : ChunkFileInfo) :
    cfi.getProperChunkFile = -1 ∨
      ∃ i < cfi.files, cfi.getProperChunkFile = (i : ℤ) ∧ cfi.capcity i < 0xffffffff := by
  rcases cfi.foldl_properStep cfi.files with ⟨hacc, -⟩ | ⟨i, hi, hacc, hlt, -⟩
  · exact Or.inl (by rw [getProperChunkFile, hacc])
  · exact Or.inr ⟨i, hi, by rw [getProperChunkFile, hacc], hlt⟩

theorem exists_file_of_ne {cfi : ChunkFileInfo} (h : cfi.getProperChunkFile ≠ -1) :
    ∃ i < cfi.files, cfi.getProperChunkFile = (i : ℤ) ∧ cfi.capcity i < 0xffffffff :=
  (cfi.getProperChunkFile_cases).resolve_left h

end ChunkFileInfo

namespace Store

theorem putNewChunk_present (whd : WriteHashDb K) {o : Outcome} {s : Store K P} {key : K}
    {bd : BlockData} (ho : o.dbGet = 0) (h : s.db key = some bd) (buf : List UInt8) (size : ℕ) :
    s.putNewChunk whd o key buf size =
      if o.dbPut = 0 then
        let bd' : BlockData := { bd with refCount := int32 (bd.refCount + 1) }
        some ({ s with db := update s.db key (some bd') }, 0)
      else some (s, -1) := by
  simp only [putNewChunk, ho, dbGet_some h, dbPut]
  split_ifs <;> simp_all

theorem putNewChunk_absent (whd : WriteHashDb K) {o : Outcome} {s : Store K P} {key : K}
    (ho : o.dbGet = 0) (h : s.db key = none) (buf : List UInt8) (size : ℕ) :
    s.putNewChunk whd o key buf size =
      (s.blockWrite whd o key buf size).map fun r =>
        (r.1, if r.2 = (fspSize : ℤ) then 0 else -1) := by
  simp [putNewChunk, ho, dbGet_none h, dbNotFound]

/-- `del_chunk` of a key that is present does nothing. -/
theorem delChunk_present {o : Outcome} {s : Store K P} {key : K} {bd : BlockData}
    (ho : o.dbGet = 0) (h : s.db key = some bd) : s.delChunk o key = some (s, 0) := by
  simp [delChunk, ho, dbGet_some h]

/-- `del_chunk` of a key that is absent pushes slot `0` onto the free list of file `0`. -/
theorem delChunk_absent {o : Outcome} {s : Store K P} {key : K} (ho : o.dbGet = 0)
    (hdel : o.dbDel = 0) (h : s.db key = none) :
    s.delChunk o key =
      ((s.cfi.fcls 0).addFreeChunk 0 o.malloc).map fun r =>
        ({ s with cfi := s.cfi.setFcl 0 r.1 }, dbNotFound) := by
  simp [delChunk, ho, hdel, dbGet_none h, dbNotFound, BlockData.zero, dbDel, h, int32, uint32]

end Store

end Agilefs
