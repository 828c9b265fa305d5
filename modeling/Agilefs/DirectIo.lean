import Agilefs.Loop
import Agilefs.Posix

/-!
# Positioned transfers in a loop

`direct_read_at` and `direct_write_at` of `io/storage/direct-ios.c`, against any sequence of
outcomes of `pread` and `pwrite`. Both call `pread(fd, buf, offset, size)`, whose last arguments
are the count and the position : they ask for `offset + ret_size` bytes at `size - ret_size`.

`directIo_iff` : for given `offset` and `size` they move the range they are asked for, whatever
the file, the buffer and the outcomes, if and only if the two are equal and at most one. A call
that moves nothing because it was asked for nothing is no reason to stop early.
`transfers_of_whole` : equal offset and size are enough for larger ranges where no call is short.

Sizes and offsets are below `2 ^ 63`, where the conversions between `off_t` and `size_t` are exact.
-/

namespace Agilefs

open Posix

/-- How a call of `pread` or `pwrite` ends. It moves `m + 1` bytes, or all there are if they are
fewer. -/
inductive IoOutcome where
  | moved (m : ℕ)
  | nothing
  | eintr
  | error

/-- The most bytes that a call moves. -/
def maxCount : ℕ := 0x7ffff000

/-- The bytes moved of `count` at the position `pos`. -/
def IoOutcome.amount (count : ℕ) (pos : ℤ) (o : IoOutcome) : Except Errno ℕ :=
  if pos < 0 then .error .other
  else match o with
    | moved m => .ok (min (min (m + 1) count) maxCount)
    | nothing => .ok 0
    | eintr => .error .EINTR
    | error => .error .other

/-- The state of the two functions, with the content of the file. `again` is the test at the end of
the loop, `calls` the number of calls so far. -/
structure DirectIo where
  file : ByteFile
  buf : List UInt8
  retSize : ℕ
  ret : ℤ
  again : Bool
  calls : ℕ

namespace DirectIo

/-- The end of an iteration. `none` is an overflow of `ret_size`. -/
def next (size : ℕ) (s : DirectIo) (ret : ℤ) (errno : Option Errno) : Option DirectIo :=
  let retSize := s.retSize + (if ret > 0 then ret.toNat else 0)
  if 2 ^ 31 ≤ retSize then none
  else some { s with
    retSize := retSize
    ret := ret
    again := (ret = -1 ∧ errno = some .EINTR) ∨ (retSize < size ∧ ret > 0)
    calls := s.calls + 1 }

/-- An iteration of `direct_read_at`. `none` is a store behind the buffer. -/
def readBody (offset size : ℕ) (out : ℕ → IoOutcome) (s : DirectIo) : Option DirectIo :=
  let pos : ℤ := size - s.retSize
  match (out s.calls).amount (offset + s.retSize) pos with
  | .ok n =>
    let d := s.file.pread n pos.toNat
    if s.buf.length < s.retSize + d.length then none
    else next size { s with buf := ByteFile.pwrite s.buf d s.retSize } d.length none
  | .error e => next size s (-1) (some e)

/-- An iteration of `direct_write_at`. `none` is a load from behind the buffer. -/
def writeBody (offset size : ℕ) (out : ℕ → IoOutcome) (s : DirectIo) : Option DirectIo :=
  let pos : ℤ := size - s.retSize
  match (out s.calls).amount (offset + s.retSize) pos with
  | .ok n =>
    if s.buf.length < s.retSize + n then none
    else
      let d := (s.buf.drop s.retSize).take n
      next size { s with file := s.file.pwrite d pos.toNat } n none
  | .error e => next size s (-1) (some e)

/-- What the functions return. -/
def result (s : DirectIo) : ℤ := if s.ret = -1 then s.ret else s.retSize

/-- The state before the loop, which runs at least once. -/
def start (file : ByteFile) (buf : List UInt8) : DirectIo := ⟨file, buf, 0, 0, true, 0⟩

end DirectIo

/-- `direct_read_at`, with fewer than `fuel` iterations : the state it ends in, and what it
returns. -/
def directReadAt (file : ByteFile) (buf : List UInt8) (offset size : ℕ) (out : ℕ → IoOutcome)
    (fuel : ℕ) : Option (DirectIo × ℤ) :=
  (Loop.run DirectIo.again (DirectIo.readBody offset size out) fuel (.start file buf)).map
    fun s => (s, s.result)

/-- `direct_write_at`. -/
def directWriteAt (file : ByteFile) (buf : List UInt8) (offset size : ℕ) (out : ℕ → IoOutcome)
    (fuel : ℕ) : Option (DirectIo × ℤ) :=
  (Loop.run DirectIo.again (DirectIo.writeBody offset size out) fuel (.start file buf)).map
    fun s => (s, s.result)

/-! ## What they are for -/

section Specification

variable (file : ByteFile) (buf : List UInt8) (offset size : ℕ) (out : ℕ → IoOutcome)

/-- `direct_read_at` ends, and if it returns `n` it has read the `n` bytes at `offset`, and is short
only at the end of the file or if a call moved nothing. -/
def ReadsRange : Prop :=
  ∃ fuel s r, directReadAt file buf offset size out fuel = some (s, r) ∧
    (r = -1 ∨ ∃ n : ℕ, r = n ∧ n ≤ size ∧ s.buf.take n = file.pread n offset ∧
      (file.pread n offset).length = n ∧
      (n < size → file.length ≤ offset + n ∨ 0 < s.calls ∧ out (s.calls - 1) = .nothing))

/-- `direct_write_at` ends, and if it returns `n` it has written the first `n` bytes of the buffer
at `offset` and nothing else. -/
def WritesRange : Prop :=
  ∃ fuel s r, directWriteAt file buf offset size out fuel = some (s, r) ∧
    (r = -1 ∨ ∃ n : ℕ, r = n ∧ n ≤ size ∧ s.file = file.pwrite (buf.take n) offset)

/-- The bytes that `direct_write_at` wrote when it returned `size` are those that `direct_read_at`
reads. -/
def ReadsBack (out' : ℕ → IoOutcome) : Prop :=
  ∀ fuel s, directWriteAt file buf offset size out fuel = some (s, (size : ℤ)) →
    ∀ buf' fuel' s' n, size ≤ buf'.length →
      directReadAt s.file buf' offset size out' fuel' = some (s', ((n : ℕ) : ℤ)) →
        s'.buf.take n = buf.take n

end Specification

/-- Finitely many calls are interrupted. -/
def FinitelyInterrupted (out : ℕ → IoOutcome) : Prop := ∃ N, ∀ k, N ≤ k → ¬out k = .eintr

/-- The two functions move the range `offset … offset + size`. -/
def MovesRange (offset size : ℕ) : Prop :=
  ∀ (file : ByteFile) (buf : List UInt8) (out out' : ℕ → IoOutcome), size ≤ buf.length →
    FinitelyInterrupted out → FinitelyInterrupted out' →
      ReadsRange file buf offset size out ∧ WritesRange file buf offset size out ∧
        ReadsBack file buf offset size out out'

/-! ## Equal offset and size -/

variable {file : ByteFile} {buf : List UInt8} {offset size : ℕ} {out out' : ℕ → IoOutcome}

namespace DirectIo

variable {s s' : DirectIo}

/-- A call that moved nothing or the whole range, or failed, ends the loop unless it was
interrupted. -/
theorem next_of_whole (hr : s.retSize = 0) (hsize : size < 2 ^ 31) {n : ℕ}
    (hn : n = 0 ∨ n = size) : next size s n none =
      some { s with retSize := n, ret := n, again := false, calls := s.calls + 1 } := by
  have hsum : s.retSize + (if (n : ℤ) > 0 then (n : ℤ).toNat else 0) = n := by
    rw [hr, Int.toNat_natCast]
    split_ifs <;> omega
  have hagain : ¬(((n : ℤ) = -1 ∧ (none : Option Errno) = some .EINTR) ∨
      (n < size ∧ (n : ℤ) > 0)) := by
    rintro (⟨h, -⟩ | ⟨h₁, h₂⟩) <;> omega
  simp only [next, hsum, if_neg (by omega : ¬2 ^ 31 ≤ n), decide_eq_false hagain]

theorem next_error (hr : s.retSize = 0) (e : Errno) : next size s (-1) (some e) =
    some { s with ret := -1, again := e = .EINTR, calls := s.calls + 1 } := by
  simp [next, hr]

/-- Nothing was moved while the loop goes on, all calls being interrupted, and `Right` holds when
it has ended. -/
structure Waiting (file : ByteFile) (buf : List UInt8) (out : ℕ → IoOutcome)
    (Right : DirectIo → Prop) (s : DirectIo) : Prop where
  again : s.again → s.file = file ∧ s.buf = buf ∧ s.retSize = 0 ∧ ∀ i < s.calls, out i = .eintr
  done : s.again = false → s.ret = -1 ∨ Right s

variable {Right : DirectIo → Prop}

theorem waiting_start : Waiting file buf out Right (start file buf) :=
  ⟨fun _ => ⟨rfl, rfl, rfl, by simp [start]⟩, by simp [start]⟩

/-- An iteration keeps waiting, or ends the loop unless its call is interrupted. -/
def Advances (file : ByteFile) (buf : List UInt8) (out : ℕ → IoOutcome)
    (Right : DirectIo → Prop) (s : DirectIo) (r : Option DirectIo) : Prop :=
  ∃ s', r = some s' ∧ Waiting file buf out Right s' ∧ s'.calls = s.calls + 1 ∧
    s'.again.toNat ≤ s.again.toNat ∧ (¬out s.calls = .eintr → s'.again.toNat < s.again.toNat)

/-- A call that fails. -/
theorem Waiting.of_error (h : Waiting file buf out Right s) (hgo : s.again) {e : Errno}
    (he : e = .EINTR ↔ out s.calls = .eintr) :
    Advances file buf out Right s (next size s (-1) (some e)) := by
  obtain ⟨hfile, hbuf, hr, hprev⟩ := h.again hgo
  refine ⟨_, next_error hr e, ⟨fun hagain => ⟨hfile, hbuf, hr, fun i hi => ?_⟩,
    fun _ => Or.inl rfl⟩, rfl, ?_, fun hne => ?_⟩
  · rcases Nat.lt_succ_iff_lt_or_eq.1 hi with hi | rfl
    · exact hprev i hi
    · exact he.1 (of_decide_eq_true hagain)
  · rw [hgo]
    exact Bool.toNat_le _
  · simp [he, hne, hgo]

/-- A call that moved nothing or the whole range; `s'` has what it moved. -/
theorem advances_of_whole (hgo : s.again) (hr : s'.retSize = 0) (hcalls : s'.calls = s.calls)
    (hsize : size < 2 ^ 31) {n : ℕ} (hn : n = 0 ∨ n = size)
    (hright : Right { s' with retSize := n, ret := n, again := false, calls := s'.calls + 1 }) :
    Advances file buf out Right s (next size s' n none) :=
  ⟨_, next_of_whole hr hsize hn, ⟨nofun, fun _ => Or.inr hright⟩, by rw [hcalls], Nat.zero_le _,
    fun _ => by simp [hgo]⟩

/-- A loop whose iterations advance ends, and returns `-1` or is right. -/
theorem exists_run_of_advances {body : DirectIo → Option DirectIo}
    (hfin : FinitelyInterrupted out)
    (hbody : ∀ s, Waiting file buf out Right s → s.again →
      Advances file buf out Right s (body s)) :
    ∃ fuel s, Loop.run again body fuel (start file buf) = some s ∧
      (s.result = -1 ∨ s.result = s.retSize ∧ Right s) := by
  obtain ⟨fuel, s, hrun, h, hend⟩ := Loop.run_of_interrupted (m := fun s => s.again.toNat) hfin
    hbody waiting_start
  refine ⟨fuel, s, hrun, ?_⟩
  rw [result]
  split_ifs with hret
  · exact Or.inl hret
  · exact Or.inr ⟨rfl, (h.done hend).resolve_left hret⟩

end DirectIo

theorem IoOutcome.amount_error {o : IoOutcome} {count pos : ℕ} {e : Errno}
    (h : o.amount count pos = .error e) : e = .EINTR ↔ o = .eintr := by
  unfold amount at h
  rw [if_neg (by omega)] at h
  cases o <;> cases h <;> simp

theorem IoOutcome.amount_le {o : IoOutcome} {count pos n : ℕ} (h : o.amount count pos = .ok n) :
    n ≤ count := by
  unfold amount at h
  rw [if_neg (by omega)] at h
  cases o <;> simp at h <;> omega

/-- A call asked for something that moves nothing. -/
theorem IoOutcome.eq_nothing {o : IoOutcome} {count pos : ℕ} (hcount : 0 < count)
    (h : o.amount count pos = .ok 0) : o = .nothing := by
  unfold amount at h
  rw [if_neg (by omega)] at h
  cases o <;> simp [maxCount] at h ⊢
  omega

theorem take_pwrite_zero (buf d : List UInt8) : (ByteFile.pwrite buf d 0).take d.length = d := by
  have h := ByteFile.pread_pwrite_self buf d 0
  rwa [ByteFile.pread, List.drop_zero] at h

theorem pread_length_pread (file : ByteFile) (n off : ℕ) :
    file.pread (file.pread n off).length off = file.pread n off := by
  simp only [ByteFile.pread, List.length_take, ← List.take_take, List.take_length]

/-- The bytes read so far are those at `offset`. -/
def DirectIo.HasRead (file : ByteFile) (offset size : ℕ) (out : ℕ → IoOutcome) (s : DirectIo) :
    Prop :=
  s.retSize ≤ size ∧ s.buf.take s.retSize = file.pread s.retSize offset ∧
    (file.pread s.retSize offset).length = s.retSize ∧
    (s.retSize < size → file.length ≤ offset + s.retSize ∨
      0 < s.calls ∧ out (s.calls - 1) = .nothing)

/-- Of equal offset and size `direct_read_at` reads the range, if the first call that is not
interrupted reads all of it or nothing. -/
theorem readsRange_of_whole (hsize : size < 2 ^ 31) (hbuf : size ≤ buf.length)
    (hfin : FinitelyInterrupted out)
    (hall : ∀ j n, (∀ i < j, out i = .eintr) → (out j).amount size size = .ok n →
      (file.pread n size).length = 0 ∨ (file.pread n size).length = size) :
    ReadsRange file buf size size out := by
  have hbody : ∀ s, DirectIo.Waiting file buf out (DirectIo.HasRead file size size out) s →
      s.again → DirectIo.Advances file buf out (DirectIo.HasRead file size size out) s
        (DirectIo.readBody size size out s) := by
    intro s h hgo
    obtain ⟨hfile, hb, hr, hprev⟩ := h.again hgo
    have hpos : (size : ℤ) - (s.retSize : ℤ) = size := by omega
    simp only [DirectIo.readBody, hpos, Int.toNat_natCast, hfile, hb]
    rw [hr, Nat.add_zero]
    cases ho : (out s.calls).amount size size with
    | error e => exact h.of_error hgo (IoOutcome.amount_error ho)
    | ok n =>
      have hl := hall s.calls n hprev ho
      have hn := IoOutcome.amount_le ho
      have hlen := ByteFile.length_pread file n size
      dsimp only
      rw [if_neg (by omega)]
      refine DirectIo.advances_of_whole hgo (by rfl) (by rfl) hsize hl ?_
      refine ⟨by simp only; omega, ?_, ?_, fun hlt => ?_⟩
      · rw [take_pwrite_zero, pread_length_pread]
      · rw [pread_length_pread]
      · simp only at hlt ⊢
        rcases Nat.eq_zero_or_pos n with rfl | hpos
        · exact Or.inr ⟨Nat.succ_pos _, IoOutcome.eq_nothing (by omega) ho⟩
        · exact Or.inl (by omega)
  obtain ⟨fuel, s, hrun, hres⟩ := DirectIo.exists_run_of_advances hfin hbody
  refine ⟨fuel, s, _, by rw [directReadAt, hrun]; rfl, hres.imp_right fun ⟨hr, hread⟩ => ?_⟩
  exact ⟨s.retSize, hr, hread⟩

/-- The bytes written so far are those at `offset`. -/
def DirectIo.HasWritten (file : ByteFile) (buf : List UInt8) (offset size : ℕ) (s : DirectIo) :
    Prop :=
  s.retSize ≤ size ∧ s.file = file.pwrite (buf.take s.retSize) offset

/-- Of equal offset and size `direct_write_at` writes the range, if the first call that is not
interrupted writes all of it or nothing. -/
theorem writesRange_of_whole (hsize : size < 2 ^ 31) (hbuf : size ≤ buf.length)
    (hfin : FinitelyInterrupted out)
    (hall : ∀ j n, (∀ i < j, out i = .eintr) → (out j).amount size size = .ok n →
      n = 0 ∨ n = size) :
    WritesRange file buf size size out := by
  have hbody : ∀ s, DirectIo.Waiting file buf out (DirectIo.HasWritten file buf size size) s →
      s.again → DirectIo.Advances file buf out (DirectIo.HasWritten file buf size size) s
        (DirectIo.writeBody size size out s) := by
    intro s h hgo
    obtain ⟨hfile, hb, hr, hprev⟩ := h.again hgo
    have hpos : (size : ℤ) - (s.retSize : ℤ) = size := by omega
    simp only [DirectIo.writeBody, hpos, Int.toNat_natCast, hfile, hb]
    rw [hr, Nat.add_zero]
    cases ho : (out s.calls).amount size size with
    | error e => exact h.of_error hgo (IoOutcome.amount_error ho)
    | ok n =>
      have hn := IoOutcome.amount_le ho
      dsimp only
      rw [if_neg (by omega)]
      refine DirectIo.advances_of_whole hgo (by rfl) (by rfl) hsize (hall s.calls n hprev ho) ?_
      exact ⟨hn, rfl⟩
  obtain ⟨fuel, s, hrun, hres⟩ := DirectIo.exists_run_of_advances hfin hbody
  refine ⟨fuel, s, _, by rw [directWriteAt, hrun]; rfl, hres.imp_right fun ⟨hr, hwritten⟩ => ?_⟩
  exact ⟨s.retSize, hr, hwritten⟩

/-- Right transfers bring the bytes back. -/
theorem readsBack_of_ranges (hw : WritesRange file buf offset size out)
    (hr : ∀ buf', size ≤ buf'.length →
      ReadsRange (file.pwrite (buf.take size) offset) buf' offset size out')
    (hbuf : size ≤ buf.length) : ReadsBack file buf offset size out out' := by
  intro fuel s hwrite buf' fuel' s' n hbuf' hread
  obtain ⟨fuel₁, s₁, r₁, hwrite₁, hright₁⟩ := hw
  -- what the two calls did does not depend on the bound on their iterations
  obtain ⟨t, ht, hts⟩ := Option.map_eq_some_iff.1 hwrite
  obtain ⟨t₁, ht₁, hts₁⟩ := Option.map_eq_some_iff.1 hwrite₁
  obtain rfl := Loop.run_unique ht ht₁
  obtain ⟨rfl, rfl⟩ : s = s₁ ∧ (size : ℤ) = r₁ := by simpa [hts] using hts₁
  obtain ⟨m, hm, -, hfile⟩ := hright₁.resolve_left (by omega)
  obtain rfl : size = m := by omega
  obtain ⟨fuel₂, s₂, r₂, hread₂, hright₂⟩ := hr buf' hbuf'
  rw [← hfile] at hread₂ hright₂
  obtain ⟨t', ht', hts'⟩ := Option.map_eq_some_iff.1 hread
  obtain ⟨t₂, ht₂, hts₂⟩ := Option.map_eq_some_iff.1 hread₂
  obtain rfl := Loop.run_unique ht' ht₂
  obtain ⟨rfl, rfl⟩ : s' = s₂ ∧ ((n : ℕ) : ℤ) = r₂ := by simpa [hts'] using hts₂
  obtain ⟨k, hk, hle, hbytes, -⟩ := hright₂.resolve_left (by omega)
  obtain rfl : n = k := by omega
  have hlen : (buf.take size).length = size := List.length_take_of_le hbuf
  have hself := ByteFile.pread_pwrite_self file (buf.take size) offset
  rw [hlen] at hself
  calc s'.buf.take n = s.file.pread n offset := hbytes
    _ = (s.file.pread size offset).take n := by
        rw [ByteFile.pread, ByteFile.pread, List.take_take, min_eq_left hle]
    _ = (buf.take size).take n := by rw [hfile, hself]
    _ = buf.take n := by rw [List.take_take, min_eq_left hle]

/-- The first call that is not interrupted moves all of the `size` bytes it is asked for at `size`,
or nothing. -/
def MovesWhole (size : ℕ) (out : ℕ → IoOutcome) : Prop :=
  ∀ j n, (∀ i < j, out i = .eintr) → (out j).amount size size = .ok n → n = 0 ∨ n = size

/-- The transfers of equal offset and size are right if none is short, and the file does not end
inside the range. -/
theorem transfers_of_whole (hsize : size < 2 ^ 31) (hbuf : size ≤ buf.length)
    (hfin : FinitelyInterrupted out) (hfin' : FinitelyInterrupted out')
    (hwhole : MovesWhole size out) (hwhole' : MovesWhole size out')
    (hfile : file.length ≤ size ∨ size + size ≤ file.length) :
    ReadsRange file buf size size out ∧ WritesRange file buf size size out ∧
      ReadsBack file buf size size out out' := by
  have hread : ∀ {out : ℕ → IoOutcome} {file : ByteFile} {buf}, FinitelyInterrupted out →
      MovesWhole size out → file.length ≤ size ∨ size + size ≤ file.length →
        size ≤ buf.length → ReadsRange file buf size size out := by
    intro out file buf hfin hwhole hfile hbuf
    refine readsRange_of_whole hsize hbuf hfin fun j n hprev hn => ?_
    have hall := hwhole j n hprev hn
    have hlen := ByteFile.length_pread file n size
    omega
  have hwrite : WritesRange file buf size size out := writesRange_of_whole hsize hbuf hfin hwhole
  refine ⟨hread hfin hwhole hfile hbuf, hwrite,
    readsBack_of_ranges hwrite (fun buf' hbuf' => hread hfin' hwhole' ?_ hbuf') hbuf⟩
  -- the file that was written has the whole range
  rcases Nat.eq_zero_or_pos size with rfl | hpos
  · exact Or.inr (Nat.zero_le _)
  · have hlen : (buf.take size).length = size := List.length_take_of_le hbuf
    rw [ByteFile.length_pwrite file (List.ne_nil_of_length_pos (hlen.symm ▸ hpos)), hlen]
    omega

/-- A range of at most one byte, at its own size. -/
theorem movesRange_of_le_one (hsize : size ≤ 1) : MovesRange size size := by
  have hwhole : ∀ out, MovesWhole size out := by
    intro out j n _ hn
    have hle := IoOutcome.amount_le hn
    omega
  intro file buf out out' hbuf hfin hfin'
  exact transfers_of_whole (by omega) hbuf hfin hfin' (hwhole out) (hwhole out') (by omega)

/-! ## Unequal offset and size, or more than one byte -/

namespace DirectIo

variable {s : DirectIo}

/-- A call that moves nothing ends the loop. -/
theorem readBody_zero
    (ho : (out s.calls).amount (offset + s.retSize) ((size : ℤ) - s.retSize) = .ok 0)
    (hb : s.retSize ≤ s.buf.length) (hint : s.retSize < 2 ^ 31) :
    readBody offset size out s =
      some { s with ret := 0, again := false, calls := s.calls + 1 } := by
  have hd : ∀ off, s.file.pread 0 off = [] := fun off => List.take_zero
  simp [readBody, ho, hd, hb, next]
  omega

/-- A call that reads one byte, from the wrong end. -/
theorem readBody_byte (ho : out s.calls = .moved 0) (hcount : 0 < offset + s.retSize)
    (hr : s.retSize ≤ size) {x : UInt8} (hx : s.file[size - s.retSize]? = some x)
    (hb : s.retSize < s.buf.length) (hint : s.retSize + 1 < 2 ^ 31) :
    readBody offset size out s = some { s with
      buf := ByteFile.pwrite s.buf [x] s.retSize
      retSize := s.retSize + 1
      ret := 1
      again := s.retSize + 1 < size
      calls := s.calls + 1 } := by
  have hpos : ¬(size : ℤ) - s.retSize < 0 := by omega
  have hone : min (min (0 + 1) (offset + s.retSize)) maxCount = 1 := by
    simp only [maxCount]
    omega
  have hoff : ((size : ℤ) - s.retSize).toNat = size - s.retSize := by omega
  have hd : s.file.pread 1 (size - s.retSize) = [x] := by
    rw [ByteFile.pread, List.take_one, List.head?_drop, hx]
    rfl
  simp only [readBody, IoOutcome.amount, ho, if_neg hpos, hone, hoff, hd, List.length_singleton,
    if_neg (by omega : ¬s.buf.length < s.retSize + 1), next]
  simp
  omega

/-- From a state where the next call moves nothing the loop ends as it stands. -/
theorem exists_end (hret : s.ret ≠ -1) (ho : out s.calls = .nothing)
    (hr : s.again → s.retSize ≤ size) (hb : s.retSize ≤ s.buf.length) (hint : s.retSize < 2 ^ 31) :
    ∃ n t, Loop.run again (readBody offset size out) n s = some t ∧ t.buf = s.buf ∧
      t.retSize = s.retSize ∧ t.ret ≠ -1 := by
  cases hgo : s.again with
  | false => exact ⟨1, s, by simp [Loop.run, hgo], rfl, rfl, hret⟩
  | true =>
    have hle := hr hgo
    have hzero : (out s.calls).amount (offset + s.retSize) ((size : ℤ) - s.retSize) = .ok 0 := by
      unfold IoOutcome.amount
      rw [if_neg (by omega), ho]
    exact ⟨2, { s with ret := 0, again := false, calls := s.calls + 1 },
      Loop.run_succ hgo (readBody_zero hzero hb hint) rfl, rfl, rfl, by simp⟩

end DirectIo

/-- `direct_read_at` has read what it should wherever its loop ends without an error. -/
theorem ReadsRange.hasRead (h : ReadsRange file buf offset size out) {n : ℕ} {t : DirectIo}
    (hrun : Loop.run DirectIo.again (DirectIo.readBody offset size out) n (.start file buf) =
      some t) (hret : t.ret ≠ -1) : t.HasRead file offset size out := by
  obtain ⟨fuel, s, r, hread, hright⟩ := h
  obtain ⟨t', ht', hts⟩ := Option.map_eq_some_iff.1 hread
  obtain rfl := Loop.run_unique hrun ht'
  obtain ⟨rfl, rfl⟩ := Prod.mk.inj hts
  rw [DirectIo.result, if_neg hret] at hright
  obtain ⟨n, hn, hright⟩ := hright.resolve_left (by omega)
  obtain rfl : t.retSize = n := by omega
  exact hright

/-- Zeros with a one at `i`. -/
def marked (n i : ℕ) : ByteFile := (List.replicate n 0).set i 1

theorem getElem?_marked {n i j : ℕ} (hj : j < n) :
    (marked n i)[j]? = some (if i = j then 1 else 0) := by
  rw [marked, List.getElem?_set, List.length_replicate, List.getElem?_replicate_of_lt hj]
  split_ifs
  · rfl
  · omega
  · rfl

/-- The first `c` calls move a byte each, and the others nothing. -/
def bytes (c k : ℕ) : IoOutcome := if k < c then .moved 0 else .nothing

theorem finitelyInterrupted_bytes (c : ℕ) : FinitelyInterrupted (bytes c) :=
  ⟨0, fun k _ => by unfold bytes; split_ifs <;> exact nofun⟩

/-- With the offset zero nothing is asked for. -/
theorem MovesRange.size_eq_zero (h : MovesRange 0 size) : size = 0 := by
  by_contra hne
  set s := DirectIo.start [1] (List.replicate size 0) with hs
  have hread := (h [1] (List.replicate size 0) (bytes 1) (bytes 1) (by simp)
    (finitelyInterrupted_bytes 1) (finitelyInterrupted_bytes 1)).1
  have hzero : (bytes 1 0).amount (0 + s.retSize) ((size : ℤ) - s.retSize) = .ok 0 := by
    simp [hs, DirectIo.start, bytes, IoOutcome.amount]
  have hrun : Loop.run DirectIo.again (DirectIo.readBody 0 size (bytes 1)) 2 s =
      some { s with ret := 0, again := false, calls := s.calls + 1 } :=
    Loop.run_succ rfl (DirectIo.readBody_zero hzero (by simp [hs, DirectIo.start])
      (by simp [hs, DirectIo.start])) rfl
  obtain ⟨-, -, -, hshort⟩ := hread.hasRead hrun (by simp)
  rcases hshort (by simp [hs, DirectIo.start]; omega) with hend | ⟨-, hnothing⟩
  · simp [hs, DirectIo.start] at hend
  · simp [hs, DirectIo.start, bytes] at hnothing

section Bytes

variable {x y : UInt8}

/-- The first call reads the byte at `size`. -/
theorem readBody_first {c : ℕ} (hc : 0 < c) (hoff : 0 < offset) (hx : file[size]? = some x)
    (hb : 0 < buf.length) :
    DirectIo.readBody offset size (bytes c) (.start file buf) =
      some ⟨file, ByteFile.pwrite buf [x] 0, 1, 1, 1 < size, 1⟩ :=
  DirectIo.readBody_byte (if_pos hc) hoff (Nat.zero_le _) hx hb (by simp [DirectIo.start])

theorem exists_read_one (hoff : 0 < offset) (hx : file[size]? = some x) (hb : 0 < buf.length) :
    ∃ n t, Loop.run DirectIo.again (DirectIo.readBody offset size (bytes 1)) n
        (.start file buf) = some t ∧ t.buf = ByteFile.pwrite buf [x] 0 ∧ t.retSize = 1 ∧
      t.ret ≠ -1 := by
  have hlen : (ByteFile.pwrite buf [x] 0).length = buf.length :=
    ByteFile.length_pwrite_of_le (by simp; omega)
  obtain ⟨n, t, hrun, ht⟩ : ∃ n t, Loop.run DirectIo.again
      (DirectIo.readBody offset size (bytes 1)) n
        ⟨file, ByteFile.pwrite buf [x] 0, 1, 1, 1 < size, 1⟩ = some t ∧ _ :=
    DirectIo.exists_end (by simp) rfl (fun h => (of_decide_eq_true h).le)
      (by simp only [hlen]; omega) (by simp)
  exact ⟨n + 1, t, Loop.run_succ rfl (readBody_first Nat.one_pos hoff hx hb) hrun, ht⟩

/-- The second call reads the byte before it. -/
theorem exists_read_two (hsize : 1 < size) (hoff : 0 < offset) (hx : file[size]? = some x)
    (hy : file[size - 1]? = some y) (hb : 1 < buf.length) :
    ∃ n t, Loop.run DirectIo.again (DirectIo.readBody offset size (bytes 2)) n
        (.start file buf) = some t ∧
      t.buf = ByteFile.pwrite (ByteFile.pwrite buf [x] 0) [y] 1 ∧ t.retSize = 2 ∧ t.ret ≠ -1 := by
  have hlen : (ByteFile.pwrite buf [x] 0).length = buf.length :=
    ByteFile.length_pwrite_of_le (by simp; omega)
  have hlen' : (ByteFile.pwrite (ByteFile.pwrite buf [x] 0) [y] 1).length = buf.length := by
    rw [ByteFile.length_pwrite_of_le (by simp [hlen]; omega), hlen]
  have hsecond : DirectIo.readBody offset size (bytes 2)
      ⟨file, ByteFile.pwrite buf [x] 0, 1, 1, 1 < size, 1⟩ =
        some ⟨file, ByteFile.pwrite (ByteFile.pwrite buf [x] 0) [y] 1, 2, 1, 2 < size, 2⟩ :=
    DirectIo.readBody_byte rfl (Nat.succ_pos _) hsize.le hy (by simp only [hlen]; omega)
      (by simp)
  obtain ⟨n, t, hrun, ht⟩ : ∃ n t, Loop.run DirectIo.again
      (DirectIo.readBody offset size (bytes 2)) n
        ⟨file, ByteFile.pwrite (ByteFile.pwrite buf [x] 0) [y] 1, 2, 1, 2 < size, 2⟩ = some t ∧ _ :=
    DirectIo.exists_end (by simp) rfl (fun h => (of_decide_eq_true h).le)
      (by simp only [hlen']; omega) (by simp)
  exact ⟨n + 2, t, Loop.run_succ rfl (readBody_first Nat.two_pos hoff hx (by omega))
    (Loop.run_succ (decide_eq_true hsize) hsecond hrun), ht⟩

end Bytes

/-- A read of one byte brings the one at `size`. -/
theorem MovesRange.offset_eq (h : MovesRange offset size) (hpos : 0 < offset) : offset = size := by
  by_contra hne
  set file := marked (offset + size + 1) size
  have hread := (h file (List.replicate (size + 1) 0) (bytes 1) (bytes 1) (by simp)
    (finitelyInterrupted_bytes 1) (finitelyInterrupted_bytes 1)).1
  have hx : file[size]? = some 1 := by rw [getElem?_marked (by omega), if_pos rfl]
  have hy : file[offset + 0]? = some 0 := by
    rw [getElem?_marked (by omega), if_neg (by omega)]
  have hb : 0 < (List.replicate (size + 1) (0 : UInt8)).length := by simp
  obtain ⟨n, t, hrun, hbuf, hsize, hret⟩ := exists_read_one hpos hx hb
  obtain ⟨-, hbytes, -⟩ := hread.hasRead hrun hret
  have hfirst := congrArg (fun l => l[0]?) hbytes
  simp only [hsize, hbuf] at hfirst
  rw [ByteFile.getElem?_pread, if_pos Nat.one_pos, hy,
    List.getElem?_take_of_lt Nat.one_pos,
    ByteFile.getElem?_pwrite _ (List.cons_ne_nil _ _)] at hfirst
  simp at hfirst

/-- A second byte is the one before the first, not the one after it. -/
theorem MovesRange.size_le_one (h : MovesRange size size) : size ≤ 1 := by
  by_contra hlt
  set file := marked (size + 2) (size - 1)
  have hread := (h file (List.replicate size 0) (bytes 2) (bytes 2) (by simp)
    (finitelyInterrupted_bytes 2) (finitelyInterrupted_bytes 2)).1
  have hx : file[size]? = some 0 := by rw [getElem?_marked (by omega), if_neg (by omega)]
  have hy : file[size - 1]? = some 1 := by rw [getElem?_marked (by omega), if_pos rfl]
  have hz : file[size + 1]? = some 0 := by rw [getElem?_marked (by omega), if_neg (by omega)]
  have hb : 1 < (List.replicate size (0 : UInt8)).length := by
    rw [List.length_replicate]
    omega
  obtain ⟨n, t, hrun, hbuf, hsize, hret⟩ :=
    exists_read_two (by omega) (by omega : 0 < size) hx hy hb
  obtain ⟨-, hbytes, -⟩ := hread.hasRead hrun hret
  have hsecond := congrArg (fun l => l[1]?) hbytes
  simp only [hsize, hbuf] at hsecond
  rw [ByteFile.getElem?_pread, if_pos Nat.one_lt_two, hz, List.getElem?_take_of_lt Nat.one_lt_two,
    ByteFile.getElem?_pwrite _ (List.cons_ne_nil _ _)] at hsecond
  simp at hsecond

/-- `direct_read_at` and `direct_write_at` move the range they are asked for if and only if its
offset and its size are equal and at most one. -/
theorem directIo_iff (offset size : ℕ) : MovesRange offset size ↔ offset = size ∧ size ≤ 1 := by
  constructor
  · intro h
    rcases Nat.eq_zero_or_pos offset with rfl | hpos
    · have hsize := h.size_eq_zero
      exact ⟨hsize.symm, by omega⟩
    · obtain rfl := h.offset_eq hpos
      exact ⟨rfl, h.size_le_one⟩
  · rintro ⟨rfl, hle⟩
    exact movesRange_of_le_one hle

/-- Two bytes at offset `0` : no byte is read. Two bytes written at offset `1`, one by one, are
swapped. -/
theorem directIo_counterexample :
    ¬MovesRange 0 2 ∧
    (directReadAt [1, 2] [0, 0] 0 2 (fun _ => .moved 9) 3).map (fun p => (p.1.buf, p.2)) =
      some ([0, 0], 0) ∧
    (directWriteAt [1, 2, 3, 4] [7, 8] 1 2 (fun _ => .moved 0) 3).map
      (fun p => (p.1.file, p.2)) = some ([1, 8, 7, 4], 2) := by
  refine ⟨fun h => ?_, by decide, by decide⟩
  cases h.size_eq_zero

end Agilefs
