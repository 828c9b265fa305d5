import Agilefs.Posix
import Agilefs.ChunkStore
import Agilefs.Loop

/-!
# The file system client

`client/agilefs-fuse.c` : a file is a metafile that holds the size of the file in its first 8
bytes and, from byte 16 on, the 16-byte key of each of its 4096-byte blocks. An open file has
a context with a descriptor of the metafile and a size of its own. The blocks are in a store
the requests reach through `block_read`, `put_new_chunk` and `del_chunk` (`BlockStore`); the
chunk store is one (`Store.blocks`).

A request returns `none` where the source returns `-errno`, whatever is in `errno` (`returned`).
It has no meaning where the source
follows a handle that is not open or the store aborts. `Io` fixes how its system calls end.
-/

namespace Agilefs

open CInt Posix Function ByteFile

/-! ## Keys, sizes and entries -/

/-- The `hash_size` bytes of a hash. -/
abbrev Key := {k : List UInt8 // k.length = 16}

/-- The key `{0}`. -/
def Key.zero : Key := ⟨List.replicate 16 0, rfl⟩

/-- The buffer of a key, once `d` is read into it. -/
def Key.load (k : Key) (d : List UInt8) : Key :=
  ⟨overlay k.val (d.take 16), by rw [length_overlay] <;> simp [k.property]⟩

/-- The bytes of an `off_t`. -/
def offBytes (x : ℤ) : List UInt8 := leBytes 8 (uint64 x).toNat

/-- An `off_t` with the value `x`, once `d` is read into it. -/
def offLoad (x : ℤ) (d : List UInt8) : ℤ := int64 (ofLe (overlay (offBytes x) (d.take 8)))

/-- Where the metafile has the key of the block of byte `i`. -/
def entryOffset (i : ℤ) : ℤ := i.tdiv 4096 * 16 + 16

/-! ## The store of blocks -/

/-- The calls the client makes to the store. `blockRead` yields the bytes that replace the
front of the buffer, `none` if it returns `-1`. -/
structure BlockStore (B : Type*) where
  blockRead : B → Key → ℕ → ℤ → Option (List UInt8)
  putNewChunk : B → Key → List UInt8 → Option (B × ℤ)
  delChunk : B → Key → Option (B × ℤ)

/-- The chunk store. -/
def Store.blocks {P : Type*} (whd : WriteHashDb Key) (o : Outcome) :
    BlockStore (Store Key P) where
  blockRead s key size offset := s.blockRead o key size offset
  putNewChunk s key d := s.putNewChunk whd o key d fspSize
  delChunk s key := s.delChunk o key

/-! ## The client -/

/-- `struct file_context`. -/
structure FileContext where
  fd : ℤ
  stSize : ℤ
  deriving DecidableEq

/-- The metafiles, the contexts of the open files by handle, and the store. Handles from
`nextFh` on were never used. -/
structure Client (B P : Type*) where
  os : Os P
  contexts : ℕ → Option FileContext
  nextFh : ℕ
  store : B

/-- How the system calls of one request end : the transfers at each offset of the metafile,
and `fsync`. -/
structure Io where
  pread : ℤ → Transfer := fun _ => .full
  pwrite : ℤ → Transfer := fun _ => .full
  fsync : Bool := true

variable {B P : Type*}

/-- `pread` of `off_t` bytes at the front of the metafile into a variable of value `x`. -/
def readSize (os : Os P) (io : Io) (fd : ℤ) (x : ℤ) : ℤ :=
  ((os.pread (io.pread 0) fd 8 0).map (offLoad x)).getD x

/-- `pwrite` of the size `x` to the front of the metafile. -/
def writeSize (os : Os P) (io : Io) (fd : ℤ) (x : ℤ) : Os P × ℤ :=
  os.pwrite (io.pwrite 0) fd (offBytes x) 0

/-- `pread` of the entry of byte `i` into `hash_key`. -/
def readKey (os : Os P) (io : Io) (fd : ℤ) (i : ℤ) (hashKey : Key) : Key :=
  ((os.pread (io.pread (entryOffset i)) fd 16 (entryOffset i)).map hashKey.load).getD hashKey

namespace Client

/-- A new context. -/
def alloc (c : Client B P) (ctx : FileContext) : Client B P :=
  { c with contexts := update c.contexts c.nextFh (some ctx), nextFh := c.nextFh + 1 }

@[simp] theorem alloc_os (c : Client B P) (ctx : FileContext) : (c.alloc ctx).os = c.os := rfl

@[simp] theorem alloc_contexts (c : Client B P) (ctx : FileContext) :
    (c.alloc ctx).contexts = update c.contexts c.nextFh (some ctx) := rfl

@[simp] theorem alloc_nextFh (c : Client B P) (ctx : FileContext) :
    (c.alloc ctx).nextFh = c.nextFh + 1 := rfl

@[simp] theorem alloc_store (c : Client B P) (ctx : FileContext) :
    (c.alloc ctx).store = c.store := rfl

/-- The size `lstat` reports, which for a symbolic link or a directory is `sz`, and whether
the mode has the bits of `S_IFREG`. -/
def lstat (c : Client B P) (sz : Node P → ℤ) (p : P) : Option (ℤ × Bool) :=
  (c.os.names p).map fun
    | .file i => (((c.os.inodes i).length : ℤ), true)
    | .symlink q => (sz (.symlink q), true)
    | .dir => (sz .dir, false)

/-- `fuse_getattr` : the `st_size` it reports. The descriptor it opens is closed again. -/
def fuseGetattr (c : Client B P) (io : Io) (sz : Node P → ℤ) (p : P) : Option ℤ :=
  (c.lstat sz p).bind fun (size, reg) =>
    if reg then
      let (os, res) := c.os.openRead true p
      if res = -1 then none else some (readSize os io res size)
    else some size

/-- `fuse_fgetattr` : the `st_size` it reports. -/
def fuseFgetattr (c : Client B P) (fh : ℕ) : Option ℤ :=
  (c.contexts fh).bind fun ctx => (c.os.ino ctx.fd).map fun _ => ctx.stSize

/-- `fuse_mknod` of a regular file. -/
def fuseMknod [DecidableEq P] (c : Client B P) (p : P) : Client B P × Option ℤ :=
  let (os, res) := c.os.openExcl p
  if res = -1 then (c, none) else ({ c with os := os.close res }, some 0)

/-- `fuse_create`. -/
def fuseCreate [DecidableEq P] (c : Client B P) (io : Io) (p : P) : Client B P × Option ℤ :=
  let (os, fd) := c.os.openExcl p
  if fd = -1 then (c, none)
  else
    let (os, _) := os.pwrite (io.pwrite 0) fd (offBytes 0 ++ offBytes 0) 0
    (alloc { c with os } ⟨fd, 0⟩, some 0)

/-- `fuse_open`. The context is allocated with `junk` in its `st_size`. -/
def fuseOpen (c : Client B P) (io : Io) (p : P) (junk : ℤ) : Client B P × Option ℤ :=
  let (os, res) := c.os.openExisting p
  if res = -1 then (c, none)
  else (alloc { c with os } ⟨res, readSize os io res junk⟩, some 0)

/-! ## Truncation -/

/-- The variables of the truncation loop. -/
structure TruncState (B : Type*) where
  store : B
  hashKey : Key
  i : ℤ

/-- The size rounded up to whole blocks. -/
def roundUp (size : ℤ) : ℤ :=
  if size % 4096 ≠ 0 then size + 4096 - size % 4096 else size

/-- One iteration : the key of the block of byte `i` is deleted. -/
def truncBody (st : BlockStore B) (os : Os P) (io : Io) (fd : ℤ) (t : TruncState B) :
    Option (TruncState B) :=
  let hashKey := readKey os io fd t.i t.hashKey
  (st.delChunk t.store hashKey).map fun (store, _) => ⟨store, hashKey, t.i + 4096⟩

/-- The loop of `fuse_truncate` and `fuse_ftruncate`. -/
def truncLoop (st : BlockStore B) (os : Os P) (io : Io) (fd : ℤ) (stSize : ℤ) (t : TruncState B) :
    Option (TruncState B) :=
  Loop.run (fun t => decide (t.i < stSize)) (truncBody st os io fd) ((stSize - t.i).toNat + 1) t

/-- `fuse_truncate`. If the size cannot be read the descriptor stays open. -/
def fuseTruncate (st : BlockStore B) (c : Client B P) (io : Io) (p : P) (size : ℤ) :
    Option (Client B P × Option ℤ) :=
  let (os, fd) := c.os.openExisting p
  if fd = -1 then some (c, none)
  else
    match os.pread (io.pread 0) fd 8 0 with
    | none => some ({ c with os }, none)
    | some d =>
      (truncLoop st os io fd (offLoad 0 d) ⟨c.store, .zero, roundUp size⟩).map fun t =>
        ({ c with os := (writeSize os io fd size).1.close fd, store := t.store }, some 0)

/-- `fuse_ftruncate`. -/
def fuseFtruncate (st : BlockStore B) (c : Client B P) (io : Io) (fh : ℕ) (size : ℤ) :
    Option (Client B P × Option ℤ) :=
  (c.contexts fh).bind fun ctx =>
    (truncLoop st c.os io ctx.fd ctx.stSize ⟨c.store, .zero, roundUp size⟩).map fun t =>
      let ctx' := { ctx with stSize := size }
      ({ c with os := (writeSize c.os io ctx.fd size).1, store := t.store,
                contexts := update c.contexts fh (some ctx') }, some 0)

/-- `fuse_unlink`. The result of `fuse_truncate` is not looked at. -/
def fuseUnlink [DecidableEq P] (st : BlockStore B) (c : Client B P) (io : Io) (p : P) :
    Option (Client B P × Option ℤ) :=
  (fuseTruncate st c io p 0).map fun (c, _) =>
    match c.os.unlink p with
    | none => (c, none)
    | some os => ({ c with os }, some 0)

/-- `fuse_rename`. -/
def fuseRename [DecidableEq P] (c : Client B P) (p q : P) : Client B P × Option ℤ :=
  match c.os.rename p q with
  | none => (c, none)
  | some os => ({ c with os }, some 0)

/-! ## Writing -/

/-- The variables of the loop of `fuse_write`; `ok` is unset by a jump to `write_err`. -/
structure WriteState (B P : Type*) where
  os : Os P
  store : B
  hashKey : Key
  i : ℤ
  ok : Bool

/-- The bytes of the block of byte `i` : what is left of the old block, if it is not all
overwritten, and the part of `buf` that goes there. -/
def blockData (st : BlockStore B) (store : B) (hashKey : Key) (buf : List UInt8) (offset i : ℤ)
    (sizeToWrite : ℤ) : List UInt8 :=
  let data := List.replicate 4096 0
  let data :=
    if sizeToWrite ≠ 4096 then ((st.blockRead store hashKey 4096 0).map (overlay data)).getD data
    else data
  ByteFile.pwrite data ((buf.drop (i - offset).toNat).take sizeToWrite.toNat) (i % 4096).toNat

/-- One iteration. `do_hash` is a parameter. -/
def writeBody (doHash : List UInt8 → Key) (st : BlockStore B) (io : Io) (fd : ℤ)
    (buf : List UInt8) (offset : ℤ) (w : WriteState B P) : Option (WriteState B P) :=
  let sizeToWrite := min (int64 (buf.length + offset - w.i)) (4096 - w.i % 4096)
  let hashKey := readKey w.os io fd w.i w.hashKey
  let data := blockData st w.store hashKey buf offset w.i sizeToWrite
  (st.delChunk w.store hashKey).bind fun (store, _) =>
    let hashKey := doHash data
    let (os, res) := w.os.pwrite (io.pwrite (entryOffset w.i)) fd hashKey.val (entryOffset w.i)
    if res ≠ 16 then some ⟨os, store, hashKey, w.i, false⟩
    else (st.putNewChunk store hashKey data).map fun (store, res) =>
      if res ≠ 0 then ⟨os, store, hashKey, w.i, false⟩
      else ⟨os, store, hashKey, w.i + sizeToWrite, true⟩

/-- The loop of `fuse_write`. The comparison is one of unsigned values. -/
def writeLoop (doHash : List UInt8 → Key) (st : BlockStore B) (io : Io) (fd : ℤ)
    (buf : List UInt8) (offset : ℤ) (w : WriteState B P) : Option (WriteState B P) :=
  Loop.run (fun w => w.ok && decide (uint64 w.i < uint64 (offset + buf.length)))
    (writeBody doHash st io fd buf offset) (buf.length + 1) w

/-- The size after a write that ends at `n`. -/
def grownSize (stSize n : ℤ) : ℤ :=
  if uint64 stSize < uint64 n then int64 n else stSize

/-- `fuse_write` of the bytes `buf`. The stack has `junk` in `hash_key`. -/
def fuseWrite (doHash : List UInt8 → Key) (st : BlockStore B) (c : Client B P) (io : Io) (fh : ℕ)
    (buf : List UInt8) (offset : ℤ) (junk : Key) : Option (Client B P × Option ℤ) :=
  (c.contexts fh).bind fun ctx =>
    (writeLoop doHash st io ctx.fd buf offset ⟨c.os, c.store, junk, offset, true⟩).map fun w =>
      if w.ok then
        let ctx := { ctx with stSize := grownSize ctx.stSize (offset + buf.length) }
        ({ c with os := w.os, store := w.store, contexts := update c.contexts fh (some ctx) },
          some (int32 buf.length))
      else ({ c with os := w.os, store := w.store }, none)

/-- The value a request returns to the kernel, with what its calls have left in `errno`. A failed
`put_new_chunk` need not set it. -/
def returned (errno : ℤ) (ret : Option ℤ) : ℤ := ret.getD (-errno)

/-! ## Closing -/

/-- `fuse_release`. If the size cannot be written the descriptor stays open. -/
def fuseRelease (c : Client B P) (io : Io) (fh : ℕ) : Option (Client B P × Option ℤ) :=
  (c.contexts fh).map fun ctx =>
    let (os, ret) := writeSize c.os io ctx.fd ctx.stSize
    if ret < 0 then ({ c with os }, none)
    else ({ c with os := os.close ctx.fd, contexts := update c.contexts fh none }, some 0)

/-- `fuse_fsync`. -/
def fuseFsync (c : Client B P) (io : Io) (fh : ℕ) : Option (Client B P × Option ℤ) :=
  (c.contexts fh).map fun ctx =>
    ({ c with os := (writeSize c.os io ctx.fd ctx.stSize).1 }, if io.fsync then some 0 else none)

end Client

/-! ## Requests -/

/-- The requests that change a file or its handles. -/
inductive FuseOp (P : Type*) where
  | mknod (p : P)
  | create (p : P)
  | opens (p : P) (junk : ℤ)
  | write (fh : ℕ) (buf : List UInt8) (offset : ℤ) (junk : Key)
  | truncate (p : P) (size : ℤ)
  | ftruncate (fh : ℕ) (size : ℤ)
  | fsync (fh : ℕ)
  | release (fh : ℕ)
  | rename (p q : P)
  | unlink (p : P)

/-- One request, all of whose system calls succeed. -/
def Client.step [DecidableEq P] (doHash : List UInt8 → Key) (st : BlockStore B)
    (c : Client B P) : FuseOp P → Option (Client B P × Option ℤ)
  | .mknod p => some (c.fuseMknod p)
  | .create p => some (c.fuseCreate {} p)
  | .opens p junk => some (c.fuseOpen {} p junk)
  | .write fh buf offset junk => c.fuseWrite doHash st {} fh buf offset junk
  | .truncate p size => c.fuseTruncate st {} p size
  | .ftruncate fh size => c.fuseFtruncate st {} fh size
  | .fsync fh => c.fuseFsync {} fh
  | .release fh => c.fuseRelease {} fh
  | .rename p q => some (c.fuseRename p q)
  | .unlink p => c.fuseUnlink st {} p

end Agilefs
