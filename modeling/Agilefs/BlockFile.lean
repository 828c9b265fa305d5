import Agilefs.ByteFile
import Agilefs.Posix
import Agilefs.Runs

/-!
# Block files and their share counts

`write_block_file` and `ulink_block_file` of `client/fuse_io_util.c` : a block is kept in a file of
its own, with the number of its uses in the attribute `user.share_cnt`.

The test for a failed `write` compares an `int` with a `size_t` : `-1` is not less than any size, so
that a block whose `write` fails counts as kept, and a short `write` leaves a file behind without
its attribute. `runs_shared_iff` : the file of a block is there, complete and with the right count
at every point of a run, if and only if each `write` takes the whole block and no count is the
largest `int`.
-/

namespace Agilefs

namespace BlockFile

open CInt Function

/-! ## The two functions -/

/-- A file with its attribute `user.share_cnt`. -/
structure File where
  content : List UInt8
  shareCnt : Option ℤ

/-- The files by their paths. -/
abbrev Files (P : Type*) := P → Option File

/-- How the calls of one `write_block_file` end : the `errno` of `open` if it fails, and how much
`write` takes. -/
structure Outcome where
  openErrno : Option {e : ℤ // 0 < e}
  write : Posix.Transfer

/-- `ENOENT`. -/
def enoent : ℤ := 2

/-- The most bytes that one `write` takes. -/
def maxCount : ℕ := 0x7ffff000

variable {P : Type*} [DecidableEq P]

/-- `write` to a new file : the bytes it takes and what it returns. -/
def write (o : Outcome) (buffer : List UInt8) : List UInt8 × ℤ :=
  match o.write buffer.length with
  | none => ([], -1)
  | some moved =>
    let taken := (buffer.take maxCount).take moved
    (taken, taken.length)

/-- `getxattr` of `user.share_cnt` into a variable : the variable, and what the call returns. -/
def getxattr (files : Files P) (path : P) (shareNum : ℤ) : ℤ × ℤ :=
  match (files path).bind File.shareCnt with
  | some n => (n, 4)
  | none => (shareNum, -1)

/-- `setxattr` of `user.share_cnt` with `XATTR_REPLACE`. -/
def setxattr (files : Files P) (path : P) (shareNum : ℤ) : Files P × ℤ :=
  match files path with
  | some ⟨content, some _⟩ => (update files path (some ⟨content, some shareNum⟩), 0)
  | _ => (files, -1)

/-- `unlink`. -/
def unlink (files : Files P) (path : P) : Files P × ℤ :=
  if (files path).isSome then (update files path none, 0) else (files, -1)

/-- `write_block_file`. A short `write` sets no `errno`, which is still that of `access`. -/
def writeBlockFile (files : Files P) (path : P) (buffer : List UInt8) (o : Outcome) :
    Files P × ℤ :=
  let shareNum := 1
  if (files path).isNone then
    match o.openErrno with
    | some errno => (files, -errno)
    | none =>
      let (taken, res) := write o buffer
      let err := int32 res
      -- `err < size` is a comparison of unsigned values
      if uint64 err < buffer.length then (update files path (some ⟨taken, none⟩), -enoent)
      else (update files path (some ⟨taken, some shareNum⟩), 0)
  else
    let (shareNum, _) := getxattr files path shareNum
    let shareNum := int32 (shareNum + 1)
    ((setxattr files path shareNum).1, 0)

/-- `ulink_block_file`. -/
def ulinkBlockFile (files : Files P) (path : P) : Files P × ℤ :=
  let (shareNum, _) := getxattr files path 0
  let shareNum := int32 (shareNum - 1)
  if shareNum = 0 then unlink files path else setxattr files path shareNum

/-! ## One call -/

/-- `write` takes the whole block. -/
def TakesAll (o : Outcome) (buffer : List UInt8) : Prop :=
  buffer.length ≤ maxCount ∧ ∃ moved, o.write buffer.length = some moved ∧ buffer.length ≤ moved

theorem write_of_takesAll {o : Outcome} {buffer : List UInt8} (h : TakesAll o buffer) :
    write o buffer = (buffer, (buffer.length : ℤ)) := by
  obtain ⟨hmax, moved, hmoved, hle⟩ := h
  simp only [write, hmoved, List.take_of_length_le hmax, List.take_of_length_le hle]

/-- A `write` that does not take the whole block fails or is short. -/
theorem write_of_not_takesAll {o : Outcome} {buffer : List UInt8} (h : ¬TakesAll o buffer) :
    write o buffer = ([], -1) ∨
      ∃ taken : List UInt8, write o buffer = (taken, (taken.length : ℤ)) ∧
        taken.length < buffer.length ∧ taken.length ≤ maxCount := by
  unfold write
  cases hmoved : o.write buffer.length with
  | none => exact Or.inl rfl
  | some moved =>
    refine Or.inr ⟨_, rfl, ?_⟩
    have hshort : ¬(buffer.length ≤ maxCount ∧ buffer.length ≤ moved) :=
      fun ⟨hmax, hle⟩ => h ⟨hmax, moved, hmoved, hle⟩
    rw [List.length_take, List.length_take]
    omega

variable {files : Files P} {path : P} {buffer : List UInt8} {o : Outcome}

theorem uint64_int32_length {l : List UInt8} (h : l.length ≤ maxCount) :
    uint64 (int32 l.length) = l.length := by
  unfold maxCount at h
  rw [int32_of_range (by omega) (by omega), uint64_of_range (by omega) (by omega)]

theorem writeBlockFile_openErrno (h : files path = none) {e : {e : ℤ // 0 < e}}
    (ho : o.openErrno = some e) :
    writeBlockFile files path buffer o = (files, -e.val) := by
  simp [writeBlockFile, h, ho]

/-- A new file with the whole block. -/
theorem writeBlockFile_takesAll (h : files path = none) (ho : o.openErrno = none)
    (hall : TakesAll o buffer) :
    writeBlockFile files path buffer o = (update files path (some ⟨buffer, some 1⟩), 0) := by
  simp only [writeBlockFile, h, ho, write_of_takesAll hall, uint64_int32_length hall.1,
    Option.isNone_none, if_true, if_neg (lt_irrefl _)]

/-- A failed `write` passes the test, and a short one leaves its bytes behind. -/
theorem writeBlockFile_not_takesAll (h : files path = none) (ho : o.openErrno = none)
    (hmax : buffer.length < 2 ^ 64) (hall : ¬TakesAll o buffer) :
    writeBlockFile files path buffer o = (update files path (some ⟨[], some 1⟩), 0) ∨
      ∃ taken, writeBlockFile files path buffer o =
        (update files path (some ⟨taken, none⟩), -enoent) := by
  rcases write_of_not_takesAll hall with hwrite | ⟨taken, hwrite, hshort, hle⟩
  · have herr : uint64 (int32 (-1)) = 2 ^ 64 - 1 := by decide
    have hpass : ¬(2 : ℤ) ^ 64 - 1 < buffer.length := by omega
    refine Or.inl ?_
    simp only [writeBlockFile, h, ho, hwrite, herr, Option.isNone_none, if_true, if_neg hpass]
  · have hlt : (taken.length : ℤ) < buffer.length := by omega
    refine Or.inr ⟨taken, ?_⟩
    simp only [writeBlockFile, h, ho, hwrite, uint64_int32_length hle, Option.isNone_none, if_true,
      if_pos hlt]

/-- One use more of a file there is. -/
theorem writeBlockFile_some {content : List UInt8} {n : ℤ}
    (h : files path = some ⟨content, some n⟩) :
    writeBlockFile files path buffer o =
      (update files path (some ⟨content, some (int32 (n + 1))⟩), 0) := by
  simp [writeBlockFile, getxattr, setxattr, h]

theorem ulinkBlockFile_none (h : files path = none) :
    ulinkBlockFile files path = (files, -1) := by
  simp [ulinkBlockFile, getxattr, setxattr, unlink, h]

/-- One use less. -/
theorem ulinkBlockFile_some {content : List UInt8} {n : ℤ}
    (h : files path = some ⟨content, some n⟩) (h₁ : 1 ≤ n) (h₂ : n < 2 ^ 31) :
    ulinkBlockFile files path =
      (update files path (if n = 1 then none else some ⟨content, some (n - 1)⟩), 0) := by
  have hint : int32 (n - 1) = n - 1 := int32_of_range (by omega) (by omega)
  by_cases hn : n = 1
  · simp [ulinkBlockFile, getxattr, unlink, h, hn, int32_of_range]
  · have hne : n - 1 ≠ 0 := by omega
    simp [ulinkBlockFile, getxattr, setxattr, h, hint, hn, hne]

/-! ## Runs on one path -/

/-- The bytes of a block. -/
abbrev Buffer := {b : List UInt8 // b ≠ [] ∧ b.length < 2 ^ 64}

/-- A call in a run. -/
inductive Call
  | write (o : Outcome)
  | ulink

/-- The files, and how many calls of the two functions returned 0. -/
structure State (P : Type*) where
  files : Files P
  added : ℕ
  removed : ℕ

variable (path : P) (block : Buffer)

/-- The state after a call. -/
def step (s : State P) : Call → Option (State P)
  | .write o =>
    let (files, ret) := writeBlockFile s.files path block.val o
    some ⟨files, if ret = 0 then s.added + 1 else s.added, s.removed⟩
  | .ulink =>
    let (files, ret) := ulinkBlockFile s.files path
    some ⟨files, s.added, if ret = 0 then s.removed + 1 else s.removed⟩

/-- No file yet. -/
def start (files : Files P) : State P := ⟨update files path none, 0, 0⟩

/-- The file exists if and only if uses are left, with their number and the block. -/
def Shared (s : State P) : Prop :=
  ((s.files path).isSome ↔ s.removed < s.added) ∧
    ∀ f, s.files path = some f →
      f.shareCnt = some ((s.added : ℤ) - s.removed) ∧ f.content = block.val

/-- A new file gets the whole block, if it is opened, and the count of an old one grows. -/
def Keeps (s : State P) : Call → Prop
  | .write o => match s.files path with
    | none => o.openErrno.isSome ∨ TakesAll o block.val
    | some f => ∀ n, f.shareCnt = some n → n < 2 ^ 31 - 1
  | .ulink => True

/-- There are `n` uses left. -/
def Uses (n : ℕ) (s : State P) : Prop :=
  s.added = s.removed + n ∧ n < 2 ^ 31 ∧
    s.files path = if n = 0 then none else some ⟨block.val, some n⟩

variable {path} {block} {s s' : State P} {n : ℕ}

theorem uses_start (files : Files P) : Uses path block 0 (start path files) :=
  ⟨rfl, by decide, by simp [start]⟩

omit [DecidableEq P] in
theorem Uses.shared (h : Uses path block n s) : Shared path block s := by
  obtain ⟨hadded, -, hfile⟩ := h
  rw [Shared, hfile]
  by_cases hn : n = 0
  · simp [hn] at hadded ⊢
    omega
  · simp only [if_neg hn, Option.isSome_some, true_iff, Option.some.injEq]
    refine ⟨by omega, ?_⟩
    rintro f rfl
    exact ⟨by rw [hadded]; push_cast; congr 1; omega, rfl⟩

theorem step_write {o : Outcome} {files : Files P} {ret : ℤ}
    (h : writeBlockFile s.files path block.val o = (files, ret)) :
    step path block s (.write o) =
      some ⟨files, if ret = 0 then s.added + 1 else s.added, s.removed⟩ := by
  rw [step, h]

theorem step_ulink {files : Files P} {ret : ℤ} (h : ulinkBlockFile s.files path = (files, ret)) :
    step path block s .ulink =
      some ⟨files, s.added, if ret = 0 then s.removed + 1 else s.removed⟩ := by
  rw [step, h]

/-- A `write_block_file` that keeps the block adds a use, unless `open` fails. -/
theorem Uses.write {o : Outcome} (h : Uses path block n s)
    (hkeeps : Keeps path block s (.write o)) :
    ∃ s', step path block s (.write o) = some s' ∧ ∃ n', Uses path block n' s' := by
  obtain ⟨hadded, hn, hfile⟩ := h
  by_cases hzero : n = 0
  · rw [if_pos hzero] at hfile
    simp only [Keeps, hfile] at hkeeps
    cases ho : o.openErrno with
    | some e =>
      have hne : -e.val ≠ 0 := by
        have he := e.property
        omega
      refine ⟨_, step_write (writeBlockFile_openErrno hfile ho), 0, ?_, by decide, hfile⟩
      rw [if_neg hne, hadded, hzero]
    | none =>
      have hall := hkeeps.resolve_left (by simp [ho])
      exact ⟨_, step_write (writeBlockFile_takesAll hfile ho hall), 1, by simp [hadded, hzero],
        by decide, by simp⟩
  · rw [if_neg hzero] at hfile
    simp only [Keeps, hfile] at hkeeps
    have hlt := hkeeps n rfl
    have hint : int32 ((n : ℤ) + 1) = n + 1 := int32_of_range (by omega) (by omega)
    refine ⟨_, step_write (writeBlockFile_some hfile), n + 1, ?_, by omega, ?_⟩
    · simp only [if_true]
      omega
    · simp [hint]

/-- An `ulink_block_file` takes away a use, if there is one. -/
theorem Uses.ulink (h : Uses path block n s) :
    ∃ s', step path block s .ulink = some s' ∧ ∃ n', Uses path block n' s' := by
  obtain ⟨hadded, hn, hfile⟩ := h
  cases n with
  | zero =>
    exact ⟨_, step_ulink (ulinkBlockFile_none hfile), 0, hadded, by decide, hfile⟩
  | succ n =>
    rw [if_neg (Nat.succ_ne_zero n)] at hfile
    refine ⟨_, step_ulink (ulinkBlockFile_some hfile (by omega) (by omega)), n, ?_, by omega, ?_⟩
    · simp only [if_true]
      omega
    · simp

/-- The uses that are left after a call. -/
theorem Uses.step_keeps (h : Uses path block n s) {call : Call} (hkeeps : Keeps path block s call) :
    ∃ s', step path block s call = some s' ∧ ∃ n', Uses path block n' s' := by
  cases call with
  | write o => exact h.write hkeeps
  | ulink => exact h.ulink

/-- A call that does not keep the block leaves a wrong file or a wrong count. -/
theorem Uses.keeps (h : Uses path block n s) {call : Call}
    (hstep : step path block s call = some s') (hshared : Shared path block s') :
    Keeps path block s call := by
  cases call with
  | ulink => trivial
  | write o =>
    obtain ⟨hadded, hn, hfile⟩ := h
    by_cases hzero : n = 0
    · rw [if_pos hzero] at hfile
      simp only [Keeps, hfile]
      by_contra hno
      obtain ⟨hopen, hall⟩ := not_or.1 hno
      rw [Option.not_isSome_iff_eq_none] at hopen
      rcases writeBlockFile_not_takesAll hfile hopen block.property.2 hall with
        hwrite | ⟨taken, hwrite⟩
      · -- the file is there, and empty
        rw [step_write hwrite, Option.some.injEq] at hstep
        subst hstep
        have hcontent := (hshared.2 ⟨[], some 1⟩ (by simp)).2
        exact block.property.1 hcontent.symm
      · -- the file is there, and not counted
        rw [step_write hwrite, Option.some.injEq] at hstep
        subst hstep
        have hcnt := (hshared.2 ⟨taken, none⟩ (by simp)).1
        cases hcnt
    · rw [if_neg hzero] at hfile
      simp only [Keeps, hfile]
      intro m hm
      obtain rfl : (n : ℤ) = m := Option.some.inj hm
      rw [step_write (writeBlockFile_some hfile), Option.some.injEq] at hstep
      subst hstep
      have hcnt := (hshared.2 _ (update_self ..)).1
      simp only [if_true, Option.some.injEq] at hcnt
      by_contra hlarge
      have hwrap : int32 ((n : ℤ) + 1) = -2 ^ 31 := by
        obtain rfl : n = 2 ^ 31 - 1 := by omega
        decide
      omega

/-- At every point of a run the file of a block exists if and only if uses are left, with their
number and the whole block, if and only if each call keeps the block. -/
theorem runs_shared_iff (path : P) (block : Buffer) (files : Files P) (calls : List Call) :
    Runs.Always (step path block) (Shared path block) (fun _ _ _ => True) (start path files) calls ↔
      Runs.Each (step path block) (Keeps path block) (start path files) calls :=
  Runs.always_iff_each_of_step (I := fun s => ∃ n, Uses path block n s)
    (fun _ ⟨_, h⟩ => h.shared)
    (fun _ _ ⟨_, h⟩ hkeeps => by
      obtain ⟨s', hstep, h'⟩ := h.step_keeps hkeeps
      exact ⟨s', hstep, trivial, h'⟩)
    (fun _ _ _ ⟨_, h⟩ hstep _ hshared => h.keeps hstep hshared)
    ⟨0, uses_start files⟩

/-- A block of one byte. -/
def oneByte : Buffer := ⟨[7], by decide⟩

/-- A `write` that fails. -/
def failed : Outcome := ⟨none, fun _ => none⟩

/-- A `write` that takes nothing. -/
def short : Outcome := ⟨none, fun _ => some 0⟩

/-- After a `write` that fails the file is empty, and after a short one it is not counted. -/
theorem shared_counterexample :
    ¬Runs.Always (step 0 oneByte) (Shared 0 oneByte) (fun _ _ _ => True)
      (start 0 fun _ : ℕ => none) [.write failed] ∧
    ¬Runs.Always (step 0 oneByte) (Shared 0 oneByte) (fun _ _ _ => True)
      (start 0 fun _ : ℕ => none) [.write short] := by
  have huses : Uses 0 oneByte 0 (start 0 fun _ : ℕ => none) := uses_start _
  constructor
  · rintro ⟨-, s, hstep, -, hshared⟩
    have hkeeps := huses.keeps hstep hshared
    simp [Keeps, start, failed, TakesAll] at hkeeps
  · rintro ⟨-, s, hstep, -, hshared⟩
    have hkeeps := huses.keeps hstep hshared
    simp [Keeps, start, short, TakesAll, oneByte] at hkeeps

end BlockFile

end Agilefs
