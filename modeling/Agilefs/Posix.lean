import Agilefs.ByteFile
import Mathlib.Logic.Function.Basic

/-!
# Names, inodes and descriptors

The part of a POSIX file system that a program sees through its system calls. A name
refers to the inode of a regular file, to the target of a symbolic link, or to a
directory; an inode has a content; a descriptor refers to an inode and a position.
Descriptors are numbered in the order of the opens.

A call that fails returns `-1`, or `none` where it would return bytes, and changes
nothing. A `Transfer` says how many of the requested bytes one positioned read or write
moves; `Transfer.full` moves them all. What the names do not decide about an open (the
permissions, the directory of a new file, the number of descriptors) is one outcome,
`granted`.

`pwrite_spec` is the rule for a positioned write. `fileAt` is the file a path leads to; the
rules for it (`Sited.openTrunc`, `Sited.write`, `read_spec`) describe programs that write
and read their files front to back.
-/

namespace Posix

open Function

/-- What a name refers to. -/
inductive Node (P : Type*) where
  | file (ino : ℕ)
  | symlink (target : P)
  | dir
  deriving DecidableEq

/-- Two names of one inode. -/
def Node.SameFile {P : Type*} : Node P → Node P → Bool
  | .file i, .file j => i = j
  | _, _ => false

/-- An open file. -/
structure OpenFile where
  ino : ℕ
  pos : ℕ
  deriving DecidableEq

/-- The state of the file system. Inodes from `nextIno` on and descriptors from `nextFd` on
were never used. -/
structure Os (P : Type*) where
  names : P → Option (Node P)
  inodes : ℕ → ByteFile
  nextIno : ℕ
  fds : ℤ → Option OpenFile
  nextFd : ℕ

/-- How many of the `n` requested bytes are moved; `none` is an error. -/
abbrev Transfer := ℕ → Option ℕ

/-- What `errno` says of a call that failed. `EAGAIN` is `EWOULDBLOCK`. -/
inductive Errno where
  | EINTR
  | EWOULDBLOCK
  | other
  deriving DecidableEq

/-- Every requested byte is moved. -/
abbrev Transfer.full : Transfer := some

namespace Os

variable {P : Type*}

/-- What `p` leads to through at most `n - 1` symbolic links. -/
def resolve (os : Os P) : ℕ → P → Option (Node P)
  | 0, _ => none
  | n + 1, p =>
    match os.names p with
    | some (.symlink q) => os.resolve n q
    | r => r

/-- The last name on the way of `p` through at most `n - 1` symbolic links. -/
def follow (os : Os P) : ℕ → P → Option P
  | 0, _ => none
  | n + 1, p =>
    match os.names p with
    | some (.symlink q) => os.follow n q
    | _ => some p

/-- The most symbolic links one path may go through. -/
def maxLinks : ℕ := 40

/-- The regular file a path leads to. -/
def lookup (os : Os P) (p : P) : Option ℕ :=
  match os.resolve (maxLinks + 1) p with
  | some (.file ino) => some ino
  | _ => none

/-- The free name a path leads to. -/
def freeName (os : Os P) (p : P) : Option P :=
  (os.follow (maxLinks + 1) p).filter fun q => (os.names q).isNone

/-- `access` with `F_OK`. -/
def access (os : Os P) (p : P) : Bool :=
  (os.resolve (maxLinks + 1) p).isSome

/-- The inode of the file open at `fd`. -/
def ino (os : Os P) (fd : ℤ) : Option ℕ :=
  (os.fds fd).map OpenFile.ino

/-- The content of the file open at `fd`. -/
def content (os : Os P) (fd : ℤ) : ByteFile :=
  ((os.ino fd).map os.inodes).getD []

/-- A new descriptor for an inode. -/
def attach (os : Os P) (ino : ℕ) : Os P × ℤ :=
  ({ os with fds := update os.fds os.nextFd (some ⟨ino, 0⟩), nextFd := os.nextFd + 1 },
    os.nextFd)

/-- `open` with `O_RDWR`, without `O_CREAT`. A directory does not open. -/
def openExisting (os : Os P) (p : P) : Os P × ℤ :=
  match os.lookup p with
  | some ino => os.attach ino
  | none => (os, -1)

/-- `open` with `O_RDONLY`. A directory opens, but nothing can be read at its descriptor. -/
def openRead (os : Os P) (granted : Bool) (p : P) : Os P × ℤ :=
  if granted then
    match os.resolve (maxLinks + 1) p with
    | some (.file ino) => os.attach ino
    | some _ =>
      ({ os with fds := update os.fds os.nextFd none, nextFd := os.nextFd + 1 }, os.nextFd)
    | none => (os, -1)
  else (os, -1)

/-- `close`. -/
def close (os : Os P) (fd : ℤ) : Os P :=
  { os with fds := update os.fds fd none }

/-- `pread` of `n` bytes. -/
def pread (os : Os P) (t : Transfer) (fd : ℤ) (n : ℕ) (off : ℤ) : Option (List UInt8) :=
  if off < 0 then none
  else (os.ino fd).bind fun i => (t n).map fun m => (os.inodes i).pread (min m n) off.toNat

/-- `pwrite` of the bytes `d`; the number of bytes moved. -/
def pwrite (os : Os P) (t : Transfer) (fd : ℤ) (d : List UInt8) (off : ℤ) : Os P × ℤ :=
  if off < 0 then (os, -1)
  else match os.ino fd, t d.length with
    | some i, some m =>
      ({ os with inodes := update os.inodes i ((os.inodes i).pwrite (d.take m) off.toNat) },
        (d.take m).length)
    | _, _ => (os, -1)

/-- `read` of `n` bytes at the position of the descriptor. -/
def read (os : Os P) (fd : ℤ) (n : ℕ) : Os P × List UInt8 :=
  match os.fds fd with
  | some f =>
    let d := (os.inodes f.ino).pread n f.pos
    ({ os with fds := update os.fds fd (some ⟨f.ino, f.pos + d.length⟩) }, d)
  | none => (os, [])

/-- `write` of the bytes `d` at the position of the descriptor. -/
def write (os : Os P) (fd : ℤ) (d : List UInt8) : Os P :=
  match os.fds fd with
  | some f =>
    { os with inodes := update os.inodes f.ino ((os.inodes f.ino).pwrite d f.pos),
              fds := update os.fds fd (some ⟨f.ino, f.pos + d.length⟩) }
  | none => os

/-- The files with another content of inode `i`. -/
def setContent (os : Os P) (i : ℕ) (f : ByteFile) : Os P :=
  { os with inodes := update os.inodes i f }

section SetContent

variable (os : Os P) (i : ℕ) (f : ByteFile)

@[simp] theorem setContent_names : (os.setContent i f).names = os.names := rfl

@[simp] theorem setContent_inodes : (os.setContent i f).inodes = update os.inodes i f := rfl

@[simp] theorem setContent_nextIno : (os.setContent i f).nextIno = os.nextIno := rfl

@[simp] theorem setContent_fds : (os.setContent i f).fds = os.fds := rfl

@[simp] theorem setContent_nextFd : (os.setContent i f).nextFd = os.nextFd := rfl

@[simp] theorem setContent_ino (fd : ℤ) : (os.setContent i f).ino fd = os.ino fd := rfl

@[simp] theorem setContent_setContent (f' : ByteFile) :
    (os.setContent i f).setContent i f' = os.setContent i f' := by
  simp [setContent]

theorem setContent_self : os.setContent i (os.inodes i) = os := by
  simp [setContent]

end SetContent

section Attach

variable (os : Os P) (i : ℕ)

@[simp] theorem attach_snd : (os.attach i).2 = os.nextFd := rfl

@[simp] theorem attach_names : (os.attach i).1.names = os.names := rfl

@[simp] theorem attach_inodes : (os.attach i).1.inodes = os.inodes := rfl

@[simp] theorem attach_nextIno : (os.attach i).1.nextIno = os.nextIno := rfl

@[simp] theorem attach_fds :
    (os.attach i).1.fds = update os.fds os.nextFd (some ⟨i, 0⟩) := rfl

@[simp] theorem attach_nextFd : (os.attach i).1.nextFd = os.nextFd + 1 := rfl

theorem attach_ino (fd : ℤ) :
    (os.attach i).1.ino fd = if fd = os.nextFd then some i else os.ino fd := by
  by_cases h : fd = os.nextFd <;> simp [ino, h]

theorem attach_ino_self : (os.attach i).1.ino os.nextFd = some i := by
  simp [attach_ino]

theorem close_ino (fd fd' : ℤ) : (os.close fd).ino fd' = if fd' = fd then none else os.ino fd' := by
  by_cases h : fd' = fd <;> simp [ino, close, h]

theorem openExisting_eq {os : Os P} {p : P} {i : ℕ} (h : os.lookup p = some i) :
    os.openExisting p = os.attach i := by
  simp [openExisting, h]

end Attach

/-! ## Positioned reads and writes -/

theorem lookup_file {os : Os P} {p : P} {i : ℕ} (h : os.names p = some (.file i)) :
    os.lookup p = some i := by
  simp [lookup, resolve, h]

/-- Only the names decide where a path leads. -/
theorem resolve_congr {os os' : Os P} (h : os'.names = os.names) :
    ∀ k q, os'.resolve k q = os.resolve k q
  | 0, _ => rfl
  | k + 1, q => by simp only [resolve, h, resolve_congr h k]

theorem lookup_congr {os os' : Os P} (h : os'.names = os.names) (p : P) :
    os'.lookup p = os.lookup p := by
  simp only [lookup, resolve_congr h]

theorem follow_congr {os os' : Os P} (h : os'.names = os.names) :
    ∀ k q, os'.follow k q = os.follow k q
  | 0, _ => rfl
  | k + 1, q => by simp only [follow, h, follow_congr h k]

theorem freeName_congr {os os' : Os P} (h : os'.names = os.names) (p : P) :
    os'.freeName p = os.freeName p := by
  simp only [freeName, follow_congr h, h]

theorem freeName_eq_some {os : Os P} {p q : P} :
    os.freeName p = some q ↔ os.follow (maxLinks + 1) p = some q ∧ os.names q = none := by
  simp [freeName, Option.filter_eq_some_iff]

/-- A free name leads to itself. -/
theorem freeName_self {os : Os P} {p : P} (h : os.names p = none) : os.freeName p = some p :=
  freeName_eq_some.2 ⟨by simp [follow, h], h⟩

theorem pread_full {os : Os P} {fd : ℤ} {i : ℕ} (h : os.ino fd = some i) (n off : ℕ) :
    os.pread .full fd n off = some ((os.content fd).pread n off) := by
  simp [pread, content, h]

theorem pwrite_full {os : Os P} {fd : ℤ} {i : ℕ} (h : os.ino fd = some i) (d : List UInt8)
    (off : ℕ) :
    os.pwrite .full fd d off =
      ({ os with inodes := update os.inodes i ((os.inodes i).pwrite d off) },
        (d.length : ℤ)) := by
  simp [pwrite, h]

@[simp] theorem pwrite_fds (os : Os P) (t : Transfer) (fd : ℤ) (d : List UInt8) (off : ℤ) :
    (os.pwrite t fd d off).1.fds = os.fds := by
  unfold pwrite
  split_ifs
  · rfl
  · split <;> rfl

@[simp] theorem pwrite_names (os : Os P) (t : Transfer) (fd : ℤ) (d : List UInt8) (off : ℤ) :
    (os.pwrite t fd d off).1.names = os.names := by
  unfold pwrite
  split_ifs
  · rfl
  · split <;> rfl

@[simp] theorem pwrite_ino (os : Os P) (t : Transfer) (fd fd' : ℤ) (d : List UInt8) (off : ℤ) :
    (os.pwrite t fd d off).1.ino fd' = os.ino fd' := by
  simp [ino]

/-- A `pwrite` changes the file it writes, by some prefix of the data. -/
theorem pwrite_spec {os : Os P} {t : Transfer} {fd : ℤ} {i : ℕ} (h : os.ino fd = some i)
    (d : List UInt8) (off : ℕ) :
    ∃ m, (os.pwrite t fd d off).1.inodes =
        update os.inodes i ((os.inodes i).pwrite (d.take m) off) ∧
      ((os.pwrite t fd d off).2 = d.length → d.take m = d) := by
  simp only [pwrite, h, if_neg (by omega : ¬(off : ℤ) < 0), Int.toNat_natCast]
  cases ht : t d.length with
  | none => exact ⟨0, by simp, by simp⟩
  | some m =>
    refine ⟨m, rfl, fun hm => List.take_of_length_le ?_⟩
    simp at hm
    omega

/-! ## Names -/

variable [DecidableEq P]

/-- A new empty regular file named `p`, opened. -/
def create (os : Os P) (p : P) : Os P × ℤ :=
  ({ os with names := update os.names p (some (.file os.nextIno)),
             inodes := update os.inodes os.nextIno [],
             nextIno := os.nextIno + 1 } : Os P).attach os.nextIno

/-- `open` with `O_RDWR | O_CREAT`, without `O_EXCL`. A symbolic link that leads to a free name
has the file created there. -/
def openCreat (os : Os P) (granted : Bool) (p : P) : Os P × ℤ :=
  if granted then
    match os.lookup p, os.freeName p with
    | some ino, _ => os.attach ino
    | none, some q => os.create q
    | none, none => (os, -1)
  else (os, -1)

/-- `open` with `O_WRONLY | O_CREAT | O_TRUNC`. -/
def openTrunc (os : Os P) (granted : Bool) (p : P) : Os P × ℤ :=
  if granted then
    match os.lookup p, os.freeName p with
    | some ino, _ => ({ os with inodes := update os.inodes ino [] } : Os P).attach ino
    | none, some q => os.create q
    | none, none => (os, -1)
  else (os, -1)

/-- `open` with `O_CREAT | O_EXCL`. -/
def openExcl (os : Os P) (p : P) : Os P × ℤ :=
  match os.names p with
  | none => os.create p
  | some _ => (os, -1)

/-- `unlink`. The inode lives on while it has another name or is open. -/
def unlink (os : Os P) (p : P) : Option (Os P) :=
  match os.names p with
  | some .dir => none
  | some _ => some { os with names := update os.names p none }
  | none => none

/-- `rename` of a file or a symbolic link. Two names of one inode are left as they are. -/
def rename (os : Os P) (p q : P) : Option (Os P) :=
  match os.names p, os.names q with
  | none, _ => none
  | some .dir, _ => none
  | some _, some .dir => none
  | some n, some m =>
    if p = q ∨ n.SameFile m then some os
    else some { os with names := update (update os.names q (some n)) p none }
  | some n, none => some { os with names := update (update os.names q (some n)) p none }

/-! ## Files at paths -/

/-- The inode a path leads to and its content. -/
def fileAt (os : Os P) (p : P) : Option (ℕ × ByteFile) :=
  (os.lookup p).map fun n => (n, os.inodes n)

section Create

variable (os : Os P) (p : P)

@[simp] theorem create_names :
    (os.create p).1.names = update os.names p (some (.file os.nextIno)) := rfl

@[simp] theorem create_inodes :
    (os.create p).1.inodes = update os.inodes os.nextIno [] := rfl

@[simp] theorem create_nextIno : (os.create p).1.nextIno = os.nextIno + 1 := rfl

@[simp] theorem create_fds :
    (os.create p).1.fds = update os.fds os.nextFd (some ⟨os.nextIno, 0⟩) := rfl

@[simp] theorem create_nextFd : (os.create p).1.nextFd = os.nextFd + 1 := rfl

theorem openExcl_eq {os : Os P} {p : P} (h : os.names p = none) :
    os.openExcl p = ((os.create p).1, (os.nextFd : ℤ)) := by
  simp only [openExcl, h]
  rfl

end Create

omit [DecidableEq P] in
theorem fileAt_eq_some {os : Os P} {p : P} {n : ℕ} {c : ByteFile} :
    os.fileAt p = some (n, c) ↔ os.lookup p = some n ∧ os.inodes n = c := by
  simp [fileAt]

omit [DecidableEq P] in
theorem lookup_eq_some {os : Os P} {p : P} {n : ℕ} :
    os.lookup p = some n ↔ os.resolve (maxLinks + 1) p = some (.file n) := by
  unfold lookup
  split <;> simp_all

omit [DecidableEq P] in
theorem openRead_file {os : Os P} {p : P} {n : ℕ} (h : os.lookup p = some n) :
    os.openRead true p = ((os.attach n).1, (os.nextFd : ℤ)) := by
  simp [openRead, lookup_eq_some.1 h, attach]

omit [DecidableEq P] in
/-- A directory can be opened, and nothing is read from it. -/
theorem openRead_noFile {os : Os P} {p : P} (h : os.lookup p = none) (hacc : os.access p) (n : ℕ) :
    ((os.openRead true p).1.read os.nextFd n).2 = [] ∧ (os.openRead true p).2 = os.nextFd := by
  obtain ⟨x, hx⟩ := Option.isSome_iff_exists.1 hacc
  cases x <;> simp [openRead, read, hx, lookup] at h ⊢

omit [DecidableEq P] in
/-- Whatever is there can be opened to be read. -/
theorem openRead_access {os : Os P} {p : P} (h : os.access p) :
    (os.openRead true p).2 = os.nextFd := by
  obtain ⟨x, hx⟩ := Option.isSome_iff_exists.1 h
  cases x <;> simp [openRead, hx, attach]

omit [DecidableEq P] in
theorem fileAt_congr {os os' : Os P} (hnames : os'.names = os.names)
    (hinodes : os'.inodes = os.inodes) (p : P) : os'.fileAt p = os.fileAt p := by
  rw [fileAt, fileAt, lookup_congr hnames, hinodes]

/-- Inodes and descriptors are numbered in order. -/
structure Sane (os : Os P) : Prop where
  named : ∀ p n, os.names p = some (.file n) → n < os.nextIno
  opened : ∀ fd f, os.fds fd = some f → fd < os.nextFd

/-- Each of the paths leads to a file of its own or is free. -/
structure Sited (os : Os P) (paths : List P) : Prop where
  sane : os.Sane
  present : ∀ p ∈ paths, os.names p = none ∨ ∃ n, os.lookup p = some n
  inj : ∀ p ∈ paths, ∀ q ∈ paths, ∀ n, os.lookup p = some n → os.lookup q = some n → p = q

omit [DecidableEq P] in
theorem Sane.resolve_lt {os : Os P} (h : os.Sane) : ∀ {k : ℕ} {p : P} {n : ℕ},
    os.resolve k p = some (.file n) → n < os.nextIno
  | 0, _, _, hp => by simp [resolve] at hp
  | k + 1, p, n, hp => by
    unfold resolve at hp
    split at hp
    · exact h.resolve_lt hp
    · exact h.named p n hp

omit [DecidableEq P] in
theorem resolve_none {os : Os P} {p : P} (h : os.names p = none) (k : ℕ) :
    os.resolve k p = none := by
  cases k with
  | zero => rfl
  | succ k => simp [resolve, h]

/-- A path that leads somewhere still leads there once another name is taken. -/
theorem resolve_update {os os' : Os P} {p : P} {x : Node P} (hp : os.names p = none)
    (hnames : os'.names = update os.names p (some x)) : ∀ {k : ℕ} {q : P} {r : Node P},
    os.resolve k q = some r → os'.resolve k q = some r
  | 0, _, _, h => by simp [resolve] at h
  | k + 1, q, r, h => by
    have hqp : q ≠ p := by
      rintro rfl
      simp [resolve_none hp] at h
    unfold resolve at h ⊢
    rw [hnames, update_of_ne hqp]
    cases hq : os.names q with
    | none => simp [hq] at h
    | some x =>
      cases x with
      | symlink t =>
        simp only [hq] at h ⊢
        exact resolve_update hp hnames h
      | file i => simpa [hq] using h
      | dir => simpa [hq] using h

/-- Once the free name of a path is taken, the path leads to what took it. -/
theorem resolve_of_taken {os os' : Os P} {q : P} {n : ℕ} (hq : os.names q = none)
    (hnames : os'.names = update os.names q (some (.file n))) : ∀ {k : ℕ} {p : P},
    os.follow k p = some q → os'.resolve k p = some (.file n)
  | 0, _, h => by simp [follow] at h
  | k + 1, p, h => by
    unfold follow at h
    unfold resolve
    rw [hnames]
    split at h
    · next t hp =>
      have hpq : p ≠ q := by
        rintro rfl
        simp [hq] at hp
      rw [update_of_ne hpq, hp]
      exact resolve_of_taken hq hnames h
    · rw [Option.some.injEq] at h
      simp [h]

/-- A file created at a free path leaves the files at the other paths alone. -/
theorem Sited.create {os : Os P} {paths : List P} (h : os.Sited paths) {p : P}
    (hp : p ∈ paths) (hnone : os.names p = none) :
    (os.create p).1.Sited paths ∧ (os.create p).1.fileAt p = some (os.nextIno, []) ∧
      ∀ q ∈ paths, q ≠ p → (os.create p).1.fileAt q = os.fileAt q := by
  have hself : (os.create p).1.lookup p = some os.nextIno :=
    lookup_file (by simp)
  have hother : ∀ q ∈ paths, q ≠ p → (os.create p).1.lookup q = os.lookup q := by
    intro q hq hqp
    rcases h.present q hq with hq | ⟨n, hn⟩
    · have hq' : (os.create p).1.names q = none := by simp [hqp, hq]
      simp [lookup, resolve_none hq, resolve_none hq']
    · rw [hn, lookup_eq_some]
      exact resolve_update hnone rfl (lookup_eq_some.1 hn)
  have hlt : ∀ q n, os.lookup q = some n → n < os.nextIno := fun q n hn =>
    h.sane.resolve_lt (lookup_eq_some.1 hn)
  refine ⟨⟨⟨fun q n hq => ?_, fun fd f hfd => ?_⟩, fun q hq => ?_, ?_⟩, ?_, fun q hq hqp => ?_⟩
  · simp only [create_names, create_nextIno, update_apply] at hq ⊢
    split_ifs at hq
    · simp only [Option.some.injEq, Node.file.injEq] at hq
      omega
    · have := h.sane.named q n hq
      omega
  · simp only [create_fds, create_nextFd, update_apply] at hfd ⊢
    split_ifs at hfd with heq
    · omega
    · have := h.sane.opened fd f hfd
      omega
  · by_cases hqp : q = p
    · exact Or.inr ⟨os.nextIno, hqp.symm ▸ hself⟩
    · rcases h.present q hq with hq' | ⟨n, hn⟩
      · exact Or.inl (by simp [hqp, hq'])
      · exact Or.inr ⟨n, (hother q hq hqp).trans hn⟩
  · intro q hq r hr n hqn hrn
    by_cases hqp : q = p <;> by_cases hrp : r = p
    · exact hqp.trans hrp.symm
    · subst hqp
      rw [hself, Option.some.injEq] at hqn
      rw [hother r hr hrp] at hrn
      have := hlt r n hrn
      omega
    · subst hrp
      rw [hself, Option.some.injEq] at hrn
      rw [hother q hq hqp] at hqn
      have := hlt q n hqn
      omega
    · rw [hother q hq hqp] at hqn
      rw [hother r hr hrp] at hrn
      exact h.inj q hq r hr n hqn hrn
  · rw [fileAt, hself]
    simp
  · rw [fileAt, fileAt, hother q hq hqp]
    cases hn : os.lookup q with
    | none => rfl
    | some n =>
      have := hlt q n hn
      simp [update_of_ne (by omega : n ≠ os.nextIno)]

omit [DecidableEq P] in
/-- Changing the content of the file at one path leaves the files at the others alone. -/
theorem Sited.update {os : Os P} {paths : List P} (h : os.Sited paths) {p : P} (hp : p ∈ paths)
    {n : ℕ} (hn : os.lookup p = some n) (os' : Os P) (hnames : os'.names = os.names)
    (hnext : os'.nextIno = os.nextIno) {c : ByteFile}
    (hinodes : os'.inodes = Function.update os.inodes n c)
    (hopened : ∀ fd f, os'.fds fd = some f → fd < os'.nextFd) :
    os'.Sited paths ∧ os'.fileAt p = some (n, c) ∧
      ∀ q ∈ paths, q ≠ p → os'.fileAt q = os.fileAt q := by
  have hlookup := lookup_congr hnames
  refine ⟨⟨⟨?_, hopened⟩, ?_, ?_⟩, ?_, fun q hq hqp => ?_⟩
  · rw [hnames, hnext]
    exact h.sane.named
  · simp only [hnames, hlookup]
    exact h.present
  · simp only [hlookup]
    exact h.inj
  · simp [fileAt, hlookup, hn, hinodes]
  · rw [fileAt, fileAt, hlookup, hinodes]
    cases hm : os.lookup q with
    | none => rfl
    | some m =>
      have hmn : m ≠ n := by
        rintro rfl
        exact hqp (h.inj q hq p hp m hm hn)
      simp [hmn]

/-! ## Writing a file front to back -/

/-- The file at `p` has the content `c` and is open at `fd`, at its end. -/
structure Writing (os : Os P) (paths : List P) (p : P) (fd : ℤ) (c : ByteFile) : Prop where
  sited : os.Sited paths
  mem : p ∈ paths
  opened : ∃ n, os.fds fd = some ⟨n, c.length⟩ ∧ os.fileAt p = some (n, c)

/-- `open` with `O_CREAT | O_TRUNC` starts writing. -/
theorem Sited.openTrunc {os : Os P} {paths : List P} (h : os.Sited paths) {p : P}
    (hp : p ∈ paths) :
    ∃ os' fd, os.openTrunc true p = (os', fd) ∧ 0 ≤ fd ∧ os'.Writing paths p fd [] ∧
      ∀ q ∈ paths, q ≠ p → os'.fileAt q = os.fileAt q := by
  rcases h.present p hp with hnone | ⟨n, hn⟩
  · have hlk : os.lookup p = none := by simp [lookup, resolve_none hnone]
    obtain ⟨hs, hat, hframe⟩ := h.create hp hnone
    refine ⟨(os.create p).1, (os.create p).2, by simp [Os.openTrunc, hlk, freeName_self hnone], ?_,
      ⟨hs, hp, os.nextIno, ?_, hat⟩, hframe⟩
    · simp [Os.create, attach]
    · simp [Os.create, attach]
  · set os' : Os P := (({ os with inodes := Function.update os.inodes n [] } : Os P).attach n).1
      with hos'
    obtain ⟨hs, hat, hframe⟩ := h.update hp hn os' rfl rfl rfl fun fd f hfd => by
      simp only [hos', attach, update_apply] at hfd ⊢
      split_ifs at hfd with heq
      · omega
      · have := h.sane.opened fd f hfd
        omega
    refine ⟨os', os.nextFd, by simp [Os.openTrunc, hn, hos', attach], by omega,
      ⟨hs, hp, n, by simp [hos', attach], hat⟩, hframe⟩

omit [DecidableEq P] in
/-- `write` appends. -/
theorem Writing.write {os : Os P} {paths : List P} {p : P} {fd : ℤ} {c : ByteFile}
    (h : os.Writing paths p fd c) (d : List UInt8) :
    (os.write fd d).Writing paths p fd (c ++ d) ∧
      ∀ q ∈ paths, q ≠ p → (os.write fd d).fileAt q = os.fileAt q := by
  obtain ⟨n, hfd, hat⟩ := h.opened
  obtain ⟨hn, hc⟩ := fileAt_eq_some.1 hat
  have hwrite : os.write fd d =
      { os with inodes := Function.update os.inodes n (c ++ d),
                fds := Function.update os.fds fd (some ⟨n, (c ++ d).length⟩) } := by
    simp [Os.write, hfd, hc, ByteFile.pwrite_length]
  obtain ⟨hs, hat', hframe⟩ := h.sited.update h.mem hn (os.write fd d) (by simp [hwrite])
    (by simp [hwrite]) (by rw [hwrite]) fun fd' f hf => by
      simp only [hwrite, update_apply] at hf ⊢
      split_ifs at hf with heq
      · exact heq ▸ h.sited.sane.opened fd _ hfd
      · exact h.sited.sane.opened fd' f hf
  exact ⟨⟨hs, h.mem, n, by simp [hwrite], hat'⟩, hframe⟩

omit [DecidableEq P] in
@[simp] theorem fileAt_close (os : Os P) (fd : ℤ) (p : P) :
    (os.close fd).fileAt p = os.fileAt p :=
  fileAt_congr rfl rfl p

omit [DecidableEq P] in
theorem Sited.close {os : Os P} {paths : List P} (h : os.Sited paths) (fd : ℤ) :
    (os.close fd).Sited paths := by
  refine ⟨⟨h.sane.named, fun fd' f hf => ?_⟩, h.present, h.inj⟩
  simp only [Os.close, update_apply] at hf
  split_ifs at hf
  exact h.sane.opened fd' f hf

/-! ## Opening and reading -/

/-- `os'` differs from `os` in descriptors opened since. -/
structure Opens (os os' : Os P) : Prop where
  names : os'.names = os.names
  inodes : os'.inodes = os.inodes
  nextIno : os'.nextIno = os.nextIno
  nextFd : os.nextFd ≤ os'.nextFd
  fds : ∀ fd : ℤ, fd < os.nextFd → os'.fds fd = os.fds fd
  opened : ∀ fd f, os'.fds fd = some f → fd < os'.nextFd

section Opens

variable {os os' os'' : Os P} {p : P} {n : ℕ}

omit [DecidableEq P]

theorem Sane.opens (h : os.Sane) : os.Opens os :=
  ⟨rfl, rfl, rfl, le_rfl, fun _ _ => rfl, h.opened⟩

theorem Opens.trans (h : os.Opens os') (h' : os'.Opens os'') : os.Opens os'' := by
  refine ⟨h'.names.trans h.names, h'.inodes.trans h.inodes, h'.nextIno.trans h.nextIno,
    h.nextFd.trans h'.nextFd, fun fd hfd => ?_, h'.opened⟩
  have := h.nextFd
  rw [h'.fds fd (by omega), h.fds fd hfd]

theorem Opens.lookup (h : os.Opens os') (q : P) : os'.lookup q = os.lookup q :=
  lookup_congr h.names q

theorem Opens.fileAt (h : os.Opens os') (q : P) : os'.fileAt q = os.fileAt q :=
  fileAt_congr h.names h.inodes q

/-- A new descriptor. -/
theorem Opens.attach (h : os.Opens os') (n : ℕ) : os.Opens (os'.attach n).1 := by
  refine ⟨h.names, h.inodes, h.nextIno, ?_, fun fd hfd => ?_, fun fd f hf => ?_⟩
  · have := h.nextFd
    simp only [Os.attach]
    omega
  · have := h.nextFd
    simp only [Os.attach, update_of_ne (by omega : fd ≠ os'.nextFd)]
    exact h.fds fd hfd
  · simp only [Os.attach, update_apply] at hf ⊢
    split_ifs at hf with heq
    · omega
    · have := h.opened fd f hf
      omega

/-- Reading at a new descriptor moves its position only. -/
theorem Opens.read (h : os.Opens os') {fd : ℤ} (hfd : os.nextFd ≤ fd) (n : ℕ) :
    os.Opens (os'.read fd n).1 := by
  unfold Os.read
  split
  · rename_i f hf
    refine ⟨h.names, h.inodes, h.nextIno, h.nextFd, fun fd' hlt => ?_, fun fd' f' hf' => ?_⟩
    · simp only [update_of_ne (by omega : fd' ≠ fd)]
      exact h.fds fd' hlt
    · simp only [update_apply] at hf' ⊢
      split_ifs at hf' with heq
      · exact heq ▸ h.opened fd f hf
      · exact h.opened fd' f' hf'
  · exact h

/-- Opening to read brings a new descriptor at most. -/
theorem Opens.openRead (h : os.Opens os') (granted : Bool) (p : P) :
    os.Opens (os'.openRead granted p).1 := by
  unfold Os.openRead
  split_ifs
  · split
    · exact h.attach _
    · refine ⟨h.names, h.inodes, h.nextIno, h.nextFd.trans (Nat.le_succ _), fun fd hfd => ?_,
        fun fd f hf => ?_⟩
      · have := h.nextFd
        simp only [update_of_ne (by omega : fd ≠ os'.nextFd)]
        exact h.fds fd hfd
      · simp only [update_apply] at hf ⊢
        split_ifs at hf with heq
        have := h.opened fd f hf
        omega
    · exact h
  · exact h

theorem Opens.close (h : os.Opens os') {fd : ℤ} (hfd : os.nextFd ≤ fd) :
    os.Opens (os'.close fd) := by
  refine ⟨h.names, h.inodes, h.nextIno, h.nextFd, fun fd' hlt => ?_, fun fd' f hf => ?_⟩
  · simp only [Os.close, update_of_ne (by omega : fd' ≠ fd)]
    exact h.fds fd' hlt
  · simp only [Os.close, update_apply] at hf ⊢
    split_ifs at hf
    exact h.opened fd' f hf

/-- Reading the next part of a file. -/
theorem read_spec {fd : ℤ} {n : ℕ} {a d b : List UInt8} (hfd : os.fds fd = some ⟨n, a.length⟩)
    (hc : os.inodes n = a ++ d ++ b) :
    (os.read fd d.length).2 = d ∧
      (os.read fd d.length).1.fds fd = some ⟨n, (a ++ d).length⟩ := by
  have hd : (os.inodes n).pread d.length a.length = d := by rw [hc, ByteFile.pread_append]
  simp [Os.read, hfd, hd]

end Opens

/-! ## Opening and creating -/

/-- `os'` differs from `os` in descriptors opened and files created since. -/
structure Grows (os os' : Os P) : Prop where
  lookup : ∀ p n, os.lookup p = some n → os'.lookup p = some n
  inodes : ∀ n < os.nextIno, os'.inodes n = os.inodes n
  fds : ∀ fd : ℤ, fd < os.nextFd → os'.fds fd = os.fds fd
  nextIno : os.nextIno ≤ os'.nextIno
  nextFd : os.nextFd ≤ os'.nextFd

/-- `open` with `O_RDWR | O_CREAT` succeeds, if it is granted. -/
def Openable (os : Os P) (p : P) : Prop := (os.lookup p).isSome ∨ (os.freeName p).isSome

/-- The names and the inodes are the same. -/
structure SameFiles (os os' : Os P) : Prop where
  names : os'.names = os.names
  inodes : os'.inodes = os.inodes
  nextIno : os'.nextIno = os.nextIno

section Grows

variable {os os' os'' : Os P} {p : P}

omit [DecidableEq P]

theorem Grows.trans (h : os.Grows os') (h' : os'.Grows os'') : os.Grows os'' := by
  have hino := h.nextIno
  have hfd := h.nextFd
  refine ⟨fun p n hp => h'.lookup p n (h.lookup p n hp), fun n hn => ?_, fun fd hlt => ?_,
    hino.trans h'.nextIno, hfd.trans h'.nextFd⟩
  · rw [h'.inodes n (by omega), h.inodes n hn]
  · rw [h'.fds fd (by omega), h.fds fd hlt]

theorem Opens.grows (h : os.Opens os') : os.Grows os' :=
  ⟨fun p n hp => (h.lookup p).trans hp, fun n _ => by rw [h.inodes], h.fds, h.nextIno.ge, h.nextFd⟩

theorem Opens.sane (h : os.Opens os') (hs : os.Sane) : os'.Sane :=
  ⟨by rw [h.names, h.nextIno]; exact hs.named, h.opened⟩

theorem Opens.sameFiles (h : os.Opens os') : os.SameFiles os' :=
  ⟨h.names, h.inodes, h.nextIno⟩

theorem SameFiles.trans (h : os.SameFiles os') (h' : os'.SameFiles os'') : os.SameFiles os'' :=
  ⟨h'.names.trans h.names, h'.inodes.trans h.inodes, h'.nextIno.trans h.nextIno⟩

theorem SameFiles.lookup (h : os.SameFiles os') (p : P) : os'.lookup p = os.lookup p :=
  lookup_congr h.names p

theorem SameFiles.fileAt (h : os.SameFiles os') (p : P) : os'.fileAt p = os.fileAt p :=
  fileAt_congr h.names h.inodes p

theorem SameFiles.access (h : os.SameFiles os') (p : P) : os'.access p = os.access p := by
  simp only [Os.access, resolve_congr h.names]

theorem SameFiles.openable (h : os.SameFiles os') (p : P) : os'.Openable p ↔ os.Openable p := by
  rw [Openable, Openable, h.lookup, freeName_congr h.names]

end Grows

section OpenCreat

variable {os os' : Os P} {p : P}

theorem openCreat_failed {granted : Bool} (h : ¬(granted ∧ os.Openable p)) :
    os.openCreat granted p = (os, -1) := by
  cases granted with
  | false => rfl
  | true =>
    obtain ⟨hlk, hfree⟩ := not_or.1 (not_and.1 h rfl)
    rw [Option.not_isSome_iff_eq_none] at hlk hfree
    simp [openCreat, hlk, hfree]

/-- A file is opened or created at a new descriptor. -/
theorem Sane.openCreat (hs : os.Sane) (h : os.Openable p) :
    ∃ os' n, os.openCreat true p = (os', (os.nextFd : ℤ)) ∧ os'.Sane ∧ os.Grows os' ∧
      os'.ino os.nextFd = some n ∧ os'.lookup p = some n ∧ os.nextFd < os'.nextFd := by
  cases hlk : os.lookup p with
  | some n =>
    have ho := hs.opens.attach n
    refine ⟨(os.attach n).1, n, by simp [Os.openCreat, hlk, Os.attach], ho.sane hs, ho.grows,
      attach_ino_self os n, (ho.lookup p).trans hlk, by simp⟩
  | none =>
    obtain ⟨q, hfree⟩ := Option.isSome_iff_exists.1 (h.resolve_left (by simp [hlk]))
    obtain ⟨hfollow, hname⟩ := freeName_eq_some.1 hfree
    refine ⟨(os.create q).1, os.nextIno, ?_, ⟨fun q n hq => ?_, fun fd f hfd => ?_⟩,
      ⟨fun q n hq => ?_, fun n hn => ?_, fun fd hfd => ?_, by simp, by simp⟩, ?_,
      lookup_eq_some.2 (resolve_of_taken hname rfl hfollow), by simp⟩
    · simp only [Os.openCreat, hlk, hfree]
      rfl
    · simp only [create_names, create_nextIno, update_apply] at hq ⊢
      split_ifs at hq
      · simp only [Option.some.injEq, Node.file.injEq] at hq
        omega
      · have := hs.named q n hq
        omega
    · simp only [create_fds, create_nextFd, update_apply] at hfd ⊢
      split_ifs at hfd with heq
      · omega
      · have := hs.opened fd f hfd
        omega
    · exact lookup_eq_some.2 (resolve_update hname rfl (lookup_eq_some.1 hq))
    · simp [update_of_ne hn.ne]
    · simp [update_of_ne hfd.ne]
    · simp [ino]

theorem SameFiles.openCreat (h : os.SameFiles os') (granted : Bool) (p : P) :
    (os.openCreat granted p).1.SameFiles (os'.openCreat granted p).1 := by
  unfold Os.openCreat
  rw [h.lookup, freeName_congr h.names]
  split_ifs
  · split
    · exact ⟨h.names, h.inodes, h.nextIno⟩
    · exact ⟨by rw [create_names, create_names, h.names, h.nextIno],
        by rw [create_inodes, create_inodes, h.inodes, h.nextIno],
        by rw [create_nextIno, create_nextIno, h.nextIno]⟩
    · exact h
  · exact h

end OpenCreat

end Os

end Posix
