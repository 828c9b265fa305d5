import Agilefs.FuseRead

/-!
# A file system of byte arrays

What the client is for : files that are arrays of bytes, with names and handles (`FileSys`).
`FileCall` is a request to the client, one that changes something or one that asks for bytes or
sizes; `Client.serve` is what the client does for it and `FileSys.step` what it should do.

`FileSys.Fits` says of which requests the client promises this : a file is open only once, a write
begins inside the file or at its end, a truncation does not let the file grow, and a read is one of
whole blocks or inside one.
-/

namespace Agilefs

open CInt Posix Function ByteFile

/-! ## Requests -/

/-- A request to the client. `sz` is the size `lstat` reports of anything but a file. -/
inductive FileCall (P : Type*) where
  | change (op : FuseOp P)
  | read (fh : ℕ) (buf : List UInt8) (offset : ℤ) (junk : Key)
  | getattr (sz : Node P → ℤ) (p : P)
  | fgetattr (fh : ℕ)

/-- The return value, or the size asked for, and the bytes read. -/
structure FileReply where
  ret : Option ℤ
  buf : List UInt8 := []
  deriving DecidableEq

variable {B P : Type*} [DecidableEq P]

/-- A request, all of whose system calls succeed, to a client without a cache. -/
def Client.serve (doHash : List UInt8 → Key) (st : BlockStore B) (c : Client B P) :
    FileCall P → Option (Client B P × FileReply)
  | .change op => (c.step doHash st op).map fun (c, ret) => (c, { ret })
  | .read fh buf offset junk =>
    (c.fuseRead noCache st () {} fh buf offset junk).map fun (_, buf, ret) => (c, ⟨ret, buf⟩)
  | .getattr sz p => some (c, { ret := c.fuseGetattr {} sz p })
  | .fgetattr fh => some (c, { ret := c.fuseFgetattr fh })

/-! ## The file system -/

/-- Files of bytes, by number. Files from `nextFile` on and handles from `nextFh` on were never
used. -/
structure FileSys (P : Type*) where
  names : P → Option ℕ
  bytes : ℕ → ByteFile
  handles : ℕ → Option ℕ
  nextFile : ℕ
  nextFh : ℕ

namespace FileSys

omit [DecidableEq P] in
/-- No file has a name. -/
def empty (nextFile nextFh : ℕ) : FileSys P :=
  ⟨fun _ => none, fun _ => [], fun _ => none, nextFile, nextFh⟩

/-- A new empty file. -/
def create (s : FileSys P) (p : P) : FileSys P :=
  { s with
    names := update s.names p (some s.nextFile)
    bytes := update s.bytes s.nextFile []
    nextFile := s.nextFile + 1 }

omit [DecidableEq P] in
/-- A new handle for file `n`. -/
def attach (s : FileSys P) (n : ℕ) : FileSys P :=
  { s with handles := update s.handles s.nextFh (some n), nextFh := s.nextFh + 1 }

omit [DecidableEq P] in
/-- File `n` with other bytes. -/
def setBytes (s : FileSys P) (n : ℕ) (b : ByteFile) : FileSys P :=
  { s with bytes := update s.bytes n b }

/-- What a request should change, and return. -/
def change (s : FileSys P) : FuseOp P → Option (FileSys P × Option ℤ)
  | .mknod p =>
    match s.names p with
    | none => some (s.create p, some 0)
    | some _ => some (s, none)
  | .create p =>
    match s.names p with
    | none => some ((s.create p).attach s.nextFile, some 0)
    | some _ => some (s, none)
  | .opens p _ =>
    match s.names p with
    | some n => some (s.attach n, some 0)
    | none => some (s, none)
  | .write fh buf offset _ => (s.handles fh).map fun n =>
    (s.setBytes n ((s.bytes n).pwrite buf offset.toNat), some (buf.length : ℤ))
  | .truncate p size =>
    match s.names p with
    | some n => some (s.setBytes n ((s.bytes n).take size.toNat), some 0)
    | none => some (s, none)
  | .ftruncate fh size => (s.handles fh).map fun n =>
    (s.setBytes n ((s.bytes n).take size.toNat), some 0)
  | .fsync fh => (s.handles fh).map fun _ => (s, some 0)
  | .release fh => (s.handles fh).map fun _ =>
    ({ s with handles := update s.handles fh none }, some 0)
  | .rename p q =>
    match s.names p with
    | some n =>
      if p = q then some (s, some 0)
      else some ({ s with names := update (update s.names q (some n)) p none }, some 0)
    | none => some (s, none)
  | .unlink p =>
    match s.names p with
    | some _ => some ({ s with names := update s.names p none }, some 0)
    | none => some (s, none)

/-- What a request should do. -/
def step (s : FileSys P) : FileCall P → Option (FileSys P × FileReply)
  | .change op => (s.change op).map fun (s, ret) => (s, { ret })
  | .read fh buf offset _ => (s.handles fh).map fun n =>
    (s, ⟨some (buf.length : ℤ), (s.bytes n).pread buf.length offset.toNat⟩)
  | .getattr _ p => some (s, { ret := (s.names p).map fun n => ((s.bytes n).length : ℤ) })
  | .fgetattr fh => (s.handles fh).map fun n => (s, { ret := some ((s.bytes n).length : ℤ) })

/-! ## What is promised -/

omit [DecidableEq P] in
/-- No handle is open on file `n`. -/
def Closed (s : FileSys P) (n : ℕ) : Prop := ∀ fh, s.handles fh ≠ some n

omit [DecidableEq P] in
/-- The file open with the handle `fh` meets a condition. -/
def Opened (s : FileSys P) (fh : ℕ) (cond : ByteFile → Prop) : Prop :=
  ∃ n, s.handles fh = some n ∧ cond (s.bytes n)

omit [DecidableEq P] in
/-- The requests that are promised to do what they should. -/
def Fits (s : FileSys P) : FileCall P → Prop
  | .change (.opens p _) | .getattr _ p => ∀ n, s.names p = some n → s.Closed n
  | .change (.write fh buf offset _) => s.Opened fh fun b =>
    0 ≤ offset ∧ offset ≤ b.length ∧ offset + buf.length < 2 ^ 63 ∧ buf.length < 2 ^ 31
  | .change (.truncate p size) => 0 ≤ size ∧
    ∀ n, s.names p = some n → s.Closed n ∧ size ≤ (s.bytes n).length
  | .change (.ftruncate fh size) => s.Opened fh fun b => 0 ≤ size ∧ size ≤ b.length
  | .change (.fsync fh) | .change (.release fh) | .fgetattr fh => s.Opened fh fun _ => True
  | .change _ => True
  | .read fh buf offset _ => s.Opened fh fun b =>
    0 ≤ offset ∧ offset + buf.length ≤ b.length ∧ buf.length < 2 ^ 31 ∧
      (offset % 4096 = 0 ∨ offset % 4096 + buf.length ≤ 4096)

end FileSys

end Agilefs
