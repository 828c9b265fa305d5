import Agilefs.Loop
import Agilefs.Posix

/-!
# Non-blocking sockets

`sockio_nbrecv` and `sockio_nbsend` of `io/net/sockio.c` on a socket with `O_NONBLOCK`, against
any sequence of outcomes of `recv` and `send`. The `goto` back to an interrupted call is an
iteration of the loop, whose test still holds.

`nbrecv_exact` : `sockio_nbrecv` receives what it reports, if finitely many calls are interrupted.
What arrives is `stream`, which only the outcomes decide.

`sockio_nbsend` means to compare `ret` with zero and assigns to it : after the test `ret` says
whether the call would have blocked. So the loop neither counts the bytes that were accepted nor
sees an error, and resends the whole buffer until a call would block. `nbsend_iff` : it sends each
byte once if and only if the buffer is empty, or a call that would block comes before any that
accepts.
-/

namespace Agilefs

open Posix

/-! ## Receiving -/

/-- How a call of `recv` ends. It delivers as many of the bytes as were asked for. -/
inductive RecvOutcome where
  | deliver (b : UInt8) (bs : List UInt8)
  | eof
  | eintr
  | wouldBlock
  | error

namespace RecvOutcome

/-- `recv` of `count` bytes. -/
def recv (count : ℕ) : RecvOutcome → Except Errno (List UInt8)
  | deliver b bs => .ok ((b :: bs).take count)
  | eof => .ok []
  | eintr => .error .EINTR
  | wouldBlock => .error .EWOULDBLOCK
  | error => .error .other

/-- The bytes that `recv` of `count` bytes delivers. -/
def delivered (count : ℕ) (o : RecvOutcome) : List UInt8 :=
  (o.recv count).toOption.getD []

/-- The end of the stream, or an error that neither waiting nor repeating the call helps. -/
def Fails (o : RecvOutcome) : Prop := o = eof ∨ o = error

end RecvOutcome

/-- The arguments of a call of `recv` : the position in the buffer, and the count. `received` is
what was received before. -/
structure RecvCall where
  pos : ℕ
  count : ℤ
  received : ℕ

/-- The state of `sockio_nbrecv`. `ret` is what it returns from inside the loop; `calls`,
`received` and `asked` say what happened so far. -/
structure NbRecv where
  buf : List UInt8
  pos : ℕ
  comp : ℤ
  ret : Option ℤ
  calls : ℕ
  received : List UInt8
  asked : List RecvCall

namespace NbRecv

/-- The test of the loop. -/
def going (s : NbRecv) : Bool := s.ret = none ∧ s.comp ≠ 0

/-- An iteration. `none` is a store behind the buffer. -/
def body (len : ℕ) (out : ℕ → RecvOutcome) (s : NbRecv) : Option NbRecv :=
  let call : RecvCall := ⟨s.pos, s.comp, s.received.length⟩
  let s' := { s with calls := s.calls + 1, asked := s.asked ++ [call] }
  match (out s.calls).recv s.comp.toNat with
  | .ok d =>
    if d.length = 0 then some { s' with ret := some (-1) }
    else if s.pos + d.length ≤ s.buf.length then
      some { s' with buf := ByteFile.pwrite s.buf d s.pos, received := s.received ++ d,
                     comp := s.comp - d.length, pos := s.pos + d.length }
    else none
  | .error .EINTR => some s'
  | .error .EWOULDBLOCK => some { s' with ret := some (len - s.comp) }
  | .error .other => some { s' with ret := some (-1) }

end NbRecv

/-- `sockio_nbrecv`, with fewer than `fuel` iterations : the state it ends in, and what it
returns. -/
def sockioNbrecv (buf : List UInt8) (len : ℕ) (out : ℕ → RecvOutcome) (fuel : ℕ) :
    Option (NbRecv × ℤ) :=
  (Loop.run NbRecv.going (NbRecv.body len out) fuel ⟨buf, 0, len, none, 0, [], []⟩).map
    fun s => (s, s.ret.getD (len - s.comp))

namespace NbRecv

/-- The bytes that the first `k` calls deliver, if each asks for those missing from `len`. -/
def stream (len : ℕ) (out : ℕ → RecvOutcome) : ℕ → List UInt8
  | 0 => []
  | k + 1 => stream len out k ++ (out k).delivered (len - (stream len out k).length)

/-- The call number `k`, if each asks for the bytes missing from `len` behind those delivered. -/
def callAt (len : ℕ) (out : ℕ → RecvOutcome) (k : ℕ) : RecvCall :=
  let received := (stream len out k).length
  ⟨received, len - received, received⟩

variable {buf : List UInt8} {len : ℕ} {out : ℕ → RecvOutcome} {s : NbRecv}

/-- The count and the pointer are in step with what was received, and the calls say why the loop
was left. -/
structure InStep (buf : List UInt8) (len : ℕ) (out : ℕ → RecvOutcome) (s : NbRecv) : Prop where
  pos : s.pos = s.received.length
  comp : s.comp = len - s.received.length
  received_le : s.received.length ≤ len
  buf : s.buf = s.received ++ buf.drop s.received.length
  received : s.received = stream len out s.calls
  asked : s.asked = (List.range s.calls).map (callAt len out)
  missing : ∀ k < s.calls, (stream len out k).length < len
  running : s.ret = none → ∀ k < s.calls, out k ≠ .wouldBlock ∧ ¬(out k).Fails
  stopped : ∀ r, s.ret = some r → 0 < s.calls ∧
    (∀ k < s.calls - 1, out k ≠ .wouldBlock ∧ ¬(out k).Fails) ∧
    ((out (s.calls - 1) = .wouldBlock ∧ r = s.received.length ∧ s.received.length < len) ∨
      ((out (s.calls - 1)).Fails ∧ r = -1))

/-- A store at the end of what was received. -/
theorem pwrite_received {received d : List UInt8} (hd : d ≠ []) :
    ByteFile.pwrite (received ++ buf.drop received.length) d received.length =
      (received ++ d) ++ buf.drop (received ++ d).length := by
  have hgap : received.length - (received ++ buf.drop received.length).length = 0 := by simp
  rw [ByteFile.pwrite, if_neg hd, hgap, List.replicate_zero, List.append_nil, List.take_left,
    List.drop_append, List.drop_drop, List.length_append]
  have hnil : received.drop (received.length + d.length) = [] := List.drop_of_length_le (by omega)
  have hdrop : received.length + (received.length + d.length - received.length) =
      received.length + d.length := by omega
  rw [hnil, hdrop, List.nil_append]

theorem InStep.toNat_comp (h : InStep buf len out s) :
    s.comp.toNat = len - (stream len out s.calls).length := by
  rw [h.comp, h.received]
  omega

theorem InStep.asked_succ (h : InStep buf len out s) :
    s.asked ++ [⟨s.pos, s.comp, s.received.length⟩] =
      (List.range (s.calls + 1)).map (callAt len out) := by
  rw [List.range_succ, List.map_append, ← h.asked, h.pos, h.comp, h.received]
  rfl

/-- A call is made while bytes are missing. -/
theorem InStep.missing_succ (h : InStep buf len out s) (hcomp : s.comp ≠ 0) :
    ∀ k < s.calls + 1, (stream len out k).length < len := by
  refine Nat.forall_lt_succ_right.2 ⟨h.missing, ?_⟩
  have hc := h.comp
  have hle := h.received_le
  rw [← h.received]
  omega

/-- A call that delivers nothing. -/
theorem InStep.received_succ (h : InStep buf len out s)
    (ho : (out s.calls).delivered s.comp.toNat = []) :
    s.received = stream len out (s.calls + 1) := by
  rw [stream, ← h.toNat_comp, ho, List.append_nil, h.received]

/-- A call that fails. -/
theorem InStep.of_fails (h : InStep buf len out s) (hret : s.ret = none) (hcomp : s.comp ≠ 0)
    (ho : (out s.calls).Fails) :
    InStep buf len out { s with calls := s.calls + 1, ret := some (-1),
                                asked := s.asked ++ [⟨s.pos, s.comp, s.received.length⟩] } := by
  have hnil : (out s.calls).delivered s.comp.toNat = [] := by
    rcases ho with ho | ho <;> rw [ho] <;> rfl
  refine ⟨h.pos, h.comp, h.received_le, h.buf, h.received_succ hnil, h.asked_succ,
    h.missing_succ hcomp, fun hr => by simp at hr,
    fun r hr => ⟨Nat.succ_pos _, h.running hret, Or.inr ⟨ho, ?_⟩⟩⟩
  simpa using hr.symm

/-- A call that delivers bytes. -/
theorem InStep.of_deliver (h : InStep buf len out s) (hret : s.ret = none) (hcomp : s.comp ≠ 0)
    {d : List UInt8} (hd : d ≠ []) (hle : d.length ≤ s.comp.toNat)
    (hdel : (out s.calls).delivered s.comp.toNat = d)
    (ho : out s.calls ≠ .wouldBlock ∧ ¬(out s.calls).Fails) :
    InStep buf len out { s with
      calls := s.calls + 1
      asked := s.asked ++ [⟨s.pos, s.comp, s.received.length⟩]
      buf := ByteFile.pwrite s.buf d s.pos
      received := s.received ++ d
      comp := s.comp - d.length
      pos := s.pos + d.length } := by
  have hc := h.comp
  have hrec := h.received_le
  refine ⟨?_, ?_, ?_, ?_, ?_, h.asked_succ, h.missing_succ hcomp, fun _ => ?_, fun r hr => ?_⟩
  · simp only [List.length_append, h.pos]
  · simp only [List.length_append]
    omega
  · simp only [List.length_append]
    omega
  · simp only [h.buf, h.pos]
    exact pwrite_received hd
  · simp only [stream, ← h.toNat_comp, hdel, h.received]
  · exact Nat.forall_lt_succ_right.2 ⟨h.running hret, ho⟩
  · simp [hret] at hr

/-- How far the end is : the bytes missing, and one more until the loop is left. -/
def left (s : NbRecv) : ℕ := s.comp.toNat + s.ret.elim 1 (fun _ => 0)

/-- An iteration keeps the count and the pointer in step, and brings the end closer unless its call
is interrupted. -/
theorem InStep.step (h : InStep buf len out s) (hbuf : len ≤ buf.length) (hgo : s.going) :
    ∃ s', body len out s = some s' ∧ InStep buf len out s' ∧ s'.calls = s.calls + 1 ∧
      s'.left ≤ s.left ∧ (¬out s.calls = .eintr → s'.left < s.left) := by
  obtain ⟨hret, hcomp⟩ : s.ret = none ∧ s.comp ≠ 0 := by simpa [going] using hgo
  have hc := h.comp
  have hle := h.received_le
  have hprev := h.running hret
  have hleft : s.left = s.comp.toNat + 1 := by simp [left, hret]
  unfold body
  cases ho : out s.calls with
  | deliver b bs =>
    set d := (b :: bs).take s.comp.toNat with hd
    have hdlen : d.length ≤ s.comp.toNat := by simp [hd]
    have hdne : d ≠ [] := by
      rw [hd, ne_eq, List.take_eq_nil_iff]
      simp
      omega
    have hpos := List.length_pos_iff.2 hdne
    have hfit : s.received.length + d.length ≤ buf.length := by omega
    have hlen : s.buf.length = buf.length := by
      rw [h.buf]
      simp
      omega
    simp only [RecvOutcome.recv, ← hd, if_neg (by omega : ¬d.length = 0)]
    rw [if_pos (by rw [h.pos, hlen]; exact hfit)]
    have hdel : (out s.calls).delivered s.comp.toNat = d := by rw [ho]; rfl
    refine ⟨_, rfl, h.of_deliver hret hcomp hdne hdlen hdel (by simp [ho, RecvOutcome.Fails]), rfl,
      ?_, fun _ => ?_⟩
    · simp only [left, hret, Option.elim_none]
      omega
    · simp only [left, hret, Option.elim_none]
      omega
  | eof =>
    exact ⟨_, rfl, h.of_fails hret hcomp (Or.inl ho), rfl, by simp [left],
      fun _ => by simp [left, hret]⟩
  | error =>
    exact ⟨_, rfl, h.of_fails hret hcomp (Or.inr ho), rfl, by simp [left],
      fun _ => by simp [left, hret]⟩
  | eintr =>
    have hnil : (out s.calls).delivered s.comp.toNat = [] := by rw [ho]; rfl
    refine ⟨_, rfl, ⟨h.pos, h.comp, h.received_le, h.buf, h.received_succ hnil, h.asked_succ,
      h.missing_succ hcomp, fun _ => ?_, fun r hr => by simp [hret] at hr⟩, rfl,
      by simp [left, hret], fun hne => (hne rfl).elim⟩
    exact Nat.forall_lt_succ_right.2 ⟨hprev, by simp [ho, RecvOutcome.Fails]⟩
  | wouldBlock =>
    have hnil : (out s.calls).delivered s.comp.toNat = [] := by rw [ho]; rfl
    refine ⟨_, rfl, ⟨h.pos, h.comp, h.received_le, h.buf, h.received_succ hnil, h.asked_succ,
      h.missing_succ hcomp, fun hr => by simp at hr,
      fun r hr => ⟨Nat.succ_pos _, hprev, Or.inl ⟨ho, ?_, ?_⟩⟩⟩, rfl, by simp [left],
      fun _ => by simp [left, hret]⟩
    · have hr' : (len : ℤ) - s.comp = r := by simpa using hr
      simp only
      omega
    · simp only
      omega

/-- `sockio_nbrecv` ends, each `recv` asks for the bytes that are missing at the position after
those received, what was received is what the calls delivered, in order, and the return value is
how much that is, or `-1` if a call failed. No call follows one that failed or would have
blocked. -/
theorem nbrecv_exact (hbuf : len ≤ buf.length) (hfin : ∃ N, ∀ k, N ≤ k → ¬out k = .eintr) :
    ∃ fuel s r, sockioNbrecv buf len out fuel = some (s, r) ∧
      s.received = stream len out s.calls ∧
      s.asked = (List.range s.calls).map (callAt len out) ∧
      (∀ k < s.calls, (stream len out k).length < len) ∧
      (∀ k, k + 1 < s.calls → out k ≠ .wouldBlock ∧ ¬(out k).Fails) ∧
      (∀ a ∈ s.asked, a.pos = a.received ∧ a.count = (len : ℤ) - a.received) ∧
      s.buf = s.received ++ buf.drop s.received.length ∧
      (r = s.received.length ∧ s.received.length ≤ len ∧
          (s.received.length < len ↔ 0 < s.calls ∧ out (s.calls - 1) = .wouldBlock) ∨ r = -1) ∧
      (r = -1 ↔ ∃ k < s.calls, (out k).Fails) := by
  have hstart : InStep buf len out ⟨buf, 0, len, none, 0, [], []⟩ :=
    ⟨rfl, by simp, by simp, rfl, rfl, rfl, by simp, by simp, by simp⟩
  obtain ⟨fuel, s, hrun, h, hend⟩ := Loop.run_of_interrupted
    (m := left) hfin (fun s hs hgo => hs.step hbuf hgo) hstart
  have hasked : ∀ a ∈ s.asked, a.pos = a.received ∧ a.count = (len : ℤ) - a.received := by
    rw [h.asked]
    intro a ha
    obtain ⟨k, -, rfl⟩ := List.mem_map.1 ha
    exact ⟨rfl, rfl⟩
  refine ⟨fuel, s, _, by rw [sockioNbrecv, hrun]; rfl, h.received, h.asked, h.missing, ?_, hasked,
    h.buf, ?_⟩
  · intro k hk
    cases hret : s.ret with
    | none => exact h.running hret k (by omega)
    | some r => exact (h.stopped r hret).2.1 k (by omega)
  have hc := h.comp
  have hle := h.received_le
  cases hret : s.ret with
  | none =>
    -- everything has arrived
    have hcomp : s.comp = 0 := by simpa [going, hret] using hend
    have hrun := h.running hret
    rw [Option.getD_none]
    refine ⟨Or.inl ⟨by omega, hle, ?_⟩, ?_⟩
    · exact iff_of_false (by omega) fun ⟨hpos, hblock⟩ =>
        (hrun (s.calls - 1) (by omega)).1 hblock
    · exact iff_of_false (by omega) fun ⟨k, hk, hfails⟩ => (hrun k hk).2 hfails
  | some r =>
    rw [Option.getD_some]
    obtain ⟨hpos, hbefore, ⟨hblock, hr, hlt⟩ | ⟨hfails, hr⟩⟩ := h.stopped r hret
    · refine ⟨Or.inl ⟨hr, hle, iff_of_true hlt ⟨hpos, hblock⟩⟩, iff_of_false (by omega) ?_⟩
      rintro ⟨k, hk, hfails⟩
      obtain hlast | hlast : k < s.calls - 1 ∨ k = s.calls - 1 := by omega
      · exact (hbefore k hlast).2 hfails
      · simp [hlast, hblock, RecvOutcome.Fails] at hfails
    · exact ⟨Or.inr hr, iff_of_true hr ⟨s.calls - 1, by omega, hfails⟩⟩

/-- Two bytes, an interruption, and one byte again and again. -/
def interruptedOnce (k : ℕ) : RecvOutcome :=
  if k = 1 then .eintr else .deliver 7 (if k = 0 then [8] else [])

/-- Three bytes received into a buffer of four, by three calls. -/
theorem nbrecv_exact_three :
    ∃ fuel s, sockioNbrecv [0, 0, 0, 0] 3 interruptedOnce fuel = some (s, 3) ∧
      s.buf = [7, 8, 7, 0] ∧ s.asked = [⟨0, 3, 0⟩, ⟨2, 1, 2⟩, ⟨2, 1, 2⟩] := by
  have hfin : ∃ N, ∀ k, N ≤ k → ¬interruptedOnce k = .eintr := by
    refine ⟨2, fun k hk => ?_⟩
    rw [interruptedOnce, if_neg (by omega)]
    exact nofun
  have hbuf : 3 ≤ ([0, 0, 0, 0] : List UInt8).length := by decide
  obtain ⟨fuel, s, r, hrun, hrec, hasked, hmissing, -, -, hres, hret, hfail⟩ :=
    nbrecv_exact hbuf hfin
  have hnever : ∀ k, interruptedOnce k ≠ .wouldBlock ∧ ¬(interruptedOnce k).Fails := by
    intro k
    unfold interruptedOnce RecvOutcome.Fails
    split_ifs <;> simp
  have hr : r ≠ -1 := fun hr => by
    obtain ⟨k, -, hk⟩ := hfail.1 hr
    exact (hnever k).2 hk
  obtain ⟨hr, hle, hlt⟩ := hret.resolve_right hr
  have hall : s.received.length = 3 := by
    have hnot : ¬s.received.length < 3 := fun h => (hnever _).1 (hlt.1 h).2
    omega
  -- three bytes have arrived after the third call and not before
  have hcalls : s.calls = 3 := by
    have hle3 : s.calls ≤ 3 := by
      by_contra hgt
      exact absurd (hmissing 3 (by omega)) (by decide)
    have hlens : ∀ k < 3, (stream 3 interruptedOnce k).length ≠ 3 := by decide
    rw [hrec] at hall
    by_contra hne
    exact hlens s.calls (by omega) hall
  have hstream : s.received = [7, 8, 7] := by rw [hrec, hcalls]; decide
  refine ⟨fuel, s, ?_, by rw [hres, hstream]; rfl, by rw [hasked, hcalls]; rfl⟩
  rw [hrun, hr, hall]
  rfl

end NbRecv

/-! ## Sending -/

/-- How a call of `send` ends. It accepts `m + 1` bytes, or all it was given if they are fewer. -/
inductive SendOutcome where
  | accept (m : ℕ)
  | eintr
  | wouldBlock
  | error

/-- `send` of the bytes `d` : those accepted. -/
def SendOutcome.send (d : List UInt8) : SendOutcome → Except Errno (List UInt8)
  | accept m => .ok (d.take (m + 1))
  | eintr => .error .EINTR
  | wouldBlock => .error .EWOULDBLOCK
  | error => .error .other

/-- The state of `sockio_nbsend`. `accepted` are the bytes the kernel took, in order. -/
structure NbSend where
  pos : ℕ
  comp : ℤ
  ret : Option ℤ
  calls : ℕ
  accepted : List UInt8

namespace NbSend

/-- The test of the loop. -/
def going (s : NbSend) : Bool := s.ret = none ∧ s.comp ≠ 0

/-- An iteration. -/
def body (buf : List UInt8) (out : ℕ → SendOutcome) (s : NbSend) : Option NbSend :=
  let (ret, errno, accepted) : ℤ × Option Errno × List UInt8 :=
    match (out s.calls).send ((buf.drop s.pos).take s.comp.toNat) with
    | .ok d => (d.length, none, d)
    | .error e => (-1, some e, [])
  let s := { s with calls := s.calls + 1, accepted := s.accepted ++ accepted }
  -- `ret = 0 || (ret == -1 && errno == EWOULDBLOCK)` assigns the value of the disjunction
  let ret : ℤ := if ret = -1 ∧ errno = some .EWOULDBLOCK then 1 else 0
  if ret ≠ 0 then some { s with ret := some (buf.length - s.comp) }
  else if ret = -1 ∧ errno = some .EINTR then some s
  else if ret = -1 then some { s with ret := some (-1) }
  else some { s with comp := s.comp - ret, pos := s.pos + ret.toNat }

end NbSend

/-- `sockio_nbsend` of the bytes `buf`, with fewer than `fuel` iterations : the state it ends in,
and what it returns. -/
def sockioNbsend (buf : List UInt8) (out : ℕ → SendOutcome) (fuel : ℕ) : Option (NbSend × ℤ) :=
  (Loop.run NbSend.going (NbSend.body buf out) fuel ⟨0, buf.length, none, 0, []⟩).map
    fun s => (s, s.ret.getD (buf.length - s.comp))

/-- `sockio_nbsend` ends, the bytes accepted are the `r` first ones if it returns `r`, all of them
unless the last call would have blocked, and it returns `-1` only if a call failed. -/
def SendsOnce (buf : List UInt8) (out : ℕ → SendOutcome) : Prop :=
  ∃ fuel s r, sockioNbsend buf out fuel = some (s, r) ∧
    (r = -1 ∨ r = s.accepted.length ∧ s.accepted = buf.take s.accepted.length ∧
      (r < buf.length → 0 < s.calls ∧ out (s.calls - 1) = .wouldBlock)) ∧
    (r = -1 → ∃ k < s.calls, out k = .error)

/-- A call that would block comes before any that accepts. -/
def BlocksFirst (out : ℕ → SendOutcome) : Prop :=
  ∃ j, out j = .wouldBlock ∧ ∀ i < j, ∀ m, out i ≠ .accept m

namespace NbSend

variable {buf : List UInt8} {out : ℕ → SendOutcome} {s s' : NbSend}

/-- The bytes that the next call accepts. -/
def taken (buf : List UInt8) (out : ℕ → SendOutcome) (s : NbSend) : List UInt8 :=
  match out s.calls with
  | .accept m => ((buf.drop s.pos).take s.comp.toNat).take (m + 1)
  | _ => []

/-- An iteration leaves the loop if its call would block, and otherwise forgets what the call
did. -/
theorem body_eq (buf : List UInt8) (out : ℕ → SendOutcome) (s : NbSend) :
    body buf out s = some { s with
      calls := s.calls + 1
      accepted := s.accepted ++ taken buf out s
      ret := match out s.calls with
        | .wouldBlock => some (buf.length - s.comp)
        | _ => s.ret } := by
  unfold body taken
  cases ho : out s.calls with
  | accept m => simp [SendOutcome.send]
  | eintr => simp [SendOutcome.send]
  | wouldBlock => simp [SendOutcome.send]
  | error => simp [SendOutcome.send]

/-- The loop resends the whole buffer : the pointer and the count never move. -/
structure Stuck (buf : List UInt8) (out : ℕ → SendOutcome) (s : NbSend) : Prop where
  pos : s.pos = 0
  comp : s.comp = buf.length
  running : s.ret = none → ∀ i < s.calls, out i ≠ .wouldBlock
  stopped : ∀ r, s.ret = some r → r = 0 ∧ 0 < s.calls ∧ out (s.calls - 1) = .wouldBlock
  accepted : s.accepted = [] ↔ ∀ i < s.calls, ∀ m, out i ≠ .accept m

theorem taken_eq_nil_iff (hne : buf ≠ []) (h : Stuck buf out s) :
    taken buf out s = [] ↔ ∀ m, out s.calls ≠ .accept m := by
  unfold taken
  cases ho : out s.calls with
  | accept m =>
    refine iff_of_false ?_ fun h => h m rfl
    simp [h.pos, h.comp, hne]
  | eintr | wouldBlock | error => simp

theorem Stuck.step (hne : buf ≠ []) (h : Stuck buf out s) (hgo : s.going)
    (hs : body buf out s = some s') : Stuck buf out s' := by
  obtain ⟨hret, -⟩ : s.ret = none ∧ s.comp ≠ 0 := by simpa [going] using hgo
  have hlast : ∀ {p : ℕ → Prop}, (∀ i < s.calls + 1, p i) ↔ (∀ i < s.calls, p i) ∧ p s.calls :=
    fun {p} => Nat.forall_lt_succ_right
  rw [body_eq, Option.some.injEq] at hs
  subst hs
  refine ⟨h.pos, h.comp, fun hr => hlast.2 ⟨h.running hret, fun ho => ?_⟩, fun r hr => ?_, ?_⟩
  · simp [ho] at hr
  · simp only at hr
    split at hr
    · next ho => exact ⟨by simpa [h.comp] using hr.symm, Nat.succ_pos _, ho⟩
    · simp [hret] at hr
  · rw [hlast, ← h.accepted, ← taken_eq_nil_iff hne h, List.append_eq_nil_iff]

theorem stuck_start (buf : List UInt8) (out : ℕ → SendOutcome) :
    Stuck buf out ⟨0, buf.length, none, 0, []⟩ :=
  ⟨rfl, rfl, by simp, by simp, by simp⟩

theorem blocksFirst_of_sendsOnce (hne : buf ≠ []) (h : SendsOnce buf out) : BlocksFirst out := by
  obtain ⟨fuel, s, r, hrun, hret, -⟩ := h
  obtain ⟨s', hloop, hres⟩ := Option.map_eq_some_iff.1 hrun
  obtain ⟨rfl, rfl⟩ := Prod.mk.inj hres
  obtain ⟨hs, hend⟩ := Loop.run_invariant (fun _ _ hI hgo hb => Stuck.step hne hI hgo hb)
    (stuck_start buf out) hloop
  cases hr : s'.ret with
  | none =>
    have hcomp : s'.comp = 0 := by simpa [going, hr] using hend
    rw [hs.comp] at hcomp
    exact (hne (List.length_eq_zero_iff.1 (by omega))).elim
  | some r =>
    obtain ⟨rfl, hpos, hblock⟩ := hs.stopped r hr
    rw [hr, Option.getD_some] at hret
    have hnil : s'.accepted = [] := List.length_eq_zero_iff.1 (by omega)
    exact ⟨s'.calls - 1, hblock, fun i hi => hs.accepted.1 hnil i (by omega)⟩

theorem sendsOnce_nil (out : ℕ → SendOutcome) : SendsOnce [] out :=
  ⟨1, _, 0, rfl, Or.inr ⟨rfl, rfl, fun h => by simp at h⟩, fun h => by cases h⟩

/-- A loop whose first calls accept nothing ends with the first that would block. -/
theorem run_of_blocks (hne : buf ≠ []) {j : ℕ} (hblock : out j = .wouldBlock)
    (hno : ∀ i < j, ∀ m, out i ≠ .accept m) :
    ∃ s, Loop.run going (body buf out) (j + 2) ⟨0, buf.length, none, 0, []⟩ = some s ∧
      (Stuck buf out s ∧ s.accepted = [] ∧ (s.ret = none → s.calls ≤ j)) ∧ going s = false := by
  have hnever : ∀ i ≤ j, ∀ m, out i ≠ .accept m := by
    intro i hi m
    rcases Nat.lt_or_eq_of_le hi with hi | rfl
    · exact hno i hi m
    · rw [hblock]
      exact nofun
  refine Loop.run_spec (m := fun s => j + 1 - s.calls) (fun s hI hgo => ?_)
    ⟨stuck_start buf out, rfl, fun _ => Nat.zero_le _⟩ (by simp)
  obtain ⟨hs, hnil, hle⟩ := hI
  obtain ⟨hret, -⟩ : s.ret = none ∧ s.comp ≠ 0 := by simpa [going] using hgo
  have hcalls := hle hret
  have htaken := (taken_eq_nil_iff hne hs).2 (hnever s.calls hcalls)
  refine ⟨_, body_eq buf out s, ⟨hs.step hne hgo (body_eq buf out s), ?_, fun hr => ?_⟩, ?_⟩
  · simp [hnil, htaken]
  · have hj : s.calls ≠ j := by
      rintro heq
      simp [heq, hblock] at hr
    simp only
    omega
  · simp only
    omega

theorem sendsOnce_of_blocksFirst (hne : buf ≠ []) (h : BlocksFirst out) : SendsOnce buf out := by
  obtain ⟨j, hblock, hno⟩ := h
  have hpos := List.length_pos_iff.2 hne
  obtain ⟨s, hrun, ⟨hs, hnil, -⟩, hend⟩ := run_of_blocks hne hblock hno
  cases hr : s.ret with
  | none =>
    have hcomp : s.comp = 0 := by simpa [going, hr] using hend
    have := hs.comp
    omega
  | some r =>
    obtain ⟨rfl, hcalls, hlast⟩ := hs.stopped r hr
    refine ⟨j + 2, s, 0, by rw [sockioNbsend, hrun, Option.map_some, hr]; rfl, Or.inr ⟨?_, ?_, ?_⟩,
      fun h => by cases h⟩
    · simp [hnil]
    · simp [hnil]
    · exact fun _ => ⟨hcalls, hlast⟩

/-- `sockio_nbsend` sends each byte once if and only if there are none, or a call that would block
comes before any that accepts. -/
theorem nbsend_iff (buf : List UInt8) (out : ℕ → SendOutcome) :
    SendsOnce buf out ↔ buf = [] ∨ BlocksFirst out := by
  rcases eq_or_ne buf [] with rfl | hne
  · exact iff_of_true (sendsOnce_nil out) (Or.inl rfl)
  · exact ⟨fun h => Or.inr (blocksFirst_of_sendsOnce hne h),
      fun h => sendsOnce_of_blocksFirst hne (h.resolve_left hne)⟩

/-- One byte, accepted by every call : the loop does not end. If the second call would block, the
byte was sent and `0` is returned. -/
theorem nbsend_counterexample :
    ¬SendsOnce [7] (fun _ => .accept 0) ∧
    ¬SendsOnce [7] (fun k => if k = 0 then .accept 0 else .wouldBlock) ∧
    (sockioNbsend [7] (fun k => if k = 0 then .accept 0 else .wouldBlock) 3).map
      (fun p => (p.1.accepted, p.2)) = some ([7], 0) := by
  refine ⟨fun h => ?_, fun h => ?_, by decide⟩
  · obtain ⟨j, hj, -⟩ := blocksFirst_of_sendsOnce (List.cons_ne_nil _ _) h
    cases hj
  · obtain ⟨j, hj, hno⟩ := blocksFirst_of_sendsOnce (List.cons_ne_nil _ _) h
    rcases Nat.eq_zero_or_pos j with rfl | hpos
    · cases hj
    · exact hno 0 hpos 0 rfl

end NbSend

end Agilefs
