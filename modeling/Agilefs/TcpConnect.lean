import Agilefs.Runs
import Mathlib.Algebra.Order.Ring.Int
import Mathlib.Logic.Function.Basic

/-!
# Connecting on the first send

`tcp_send_generic` of `io/net/tcp.c` connects an address the first time it is called, through
`tcp_sock_init` and `sockio_connect_sock`, where each of the system calls may fail.

`tcp_sock_init` leaves the number of the socket in the address when it closes it, so that the next
call takes it for one that is connected (`tcpSendGeneric_stale`), and it does not look at what
`sockio_connect_sock` returns. `runs_connected_iff` : in a run an address is marked connected
only when it is, and a call that fails leaves it to the next one to connect, if and only if
no call gets a socket and then fails.
-/

namespace Agilefs

namespace Tcp

open Function

/-! ## Sockets -/

/-- An open socket; `peer` is the name and the port of the `sockio_connect_sock` that returned 0
on it. -/
structure Sock where
  nonblock : Bool
  peer : Option (List UInt8 × ℤ)

/-- The open sockets by their descriptors. Those from `nextFd` on were never used. -/
structure Net where
  fds : ℤ → Option Sock
  nextFd : ℕ
  unused : ∀ fd, fd < 0 ∨ (nextFd : ℤ) ≤ fd → fds fd = none

/-- How the system calls of one `tcp_send_generic` end : `connect` after `interrupted` times
`EINTR`. -/
structure Outcome where
  socket : Bool
  setsockopt : Bool
  resolves : Bool
  interrupted : ℕ
  connect : Bool

namespace Net

/-- Another state of a socket, if it is open. -/
def modify (net : Net) (fd : ℤ) (f : Sock → Sock) : Net where
  fds := update net.fds fd ((net.fds fd).map f)
  nextFd := net.nextFd
  unused x hx := by
    by_cases h : x = fd
    · rw [h, update_self, net.unused fd (h ▸ hx), Option.map_none]
    · rw [update_of_ne h, net.unused x hx]

/-- `close`. -/
def close (net : Net) (fd : ℤ) : Net where
  fds := update net.fds fd none
  nextFd := net.nextFd
  unused x hx := by
    by_cases h : x = fd
    · rw [h, update_self]
    · rw [update_of_ne h, net.unused x hx]

/-- A new socket. -/
def attach (net : Net) : Net where
  fds := update net.fds net.nextFd (some ⟨false, none⟩)
  nextFd := net.nextFd + 1
  unused x hx := by
    rw [update_of_ne (by omega), net.unused x (by omega)]

/-- `sockio_new_socket`. -/
def sockioNewSocket (net : Net) (o : Outcome) : Net × ℤ :=
  if o.socket then (net.attach, net.nextFd) else (net, -1)

/-- `F_GETFL` and `F_SETFL` with `O_NONBLOCK`. They fail if the descriptor is not open. -/
def setNonblock (net : Net) (fd : ℤ) : Net := net.modify fd fun s => { s with nonblock := true }

/-- `sockio_set_tcpopt` with the value 1. -/
def sockioSetTcpopt (net : Net) (fd : ℤ) (o : Outcome) : ℤ :=
  if (net.fds fd).isSome && o.setsockopt then 1 else -1

/-- The calls of `connect`, the first ones of which are interrupted. -/
def connectSockRestart (connect : Bool) : ℕ → ℤ
  | 0 => if connect then 0 else -1
  | n + 1 => connectSockRestart connect n

/-- `sockio_connect_sock`. -/
def sockioConnectSock (net : Net) (fd : ℤ) (name : List UInt8) (service : ℤ) (o : Outcome) :
    Net × ℤ :=
  if ¬o.resolves then (net, -1)
  else if (net.fds fd).isSome ∧ connectSockRestart o.connect o.interrupted = 0 then
    (net.modify fd fun s => { s with peer := some (name, service) }, 0)
  else (net, -1)

theorem connectSockRestart_eq (connect : Bool) : ∀ n,
    connectSockRestart connect n = if connect then 0 else -1
  | 0 => rfl
  | n + 1 => connectSockRestart_eq connect n

end Net

/-! ## Addresses -/

/-- `struct tcp_addr`. -/
structure TcpAddr where
  socket : ℤ
  port : ℤ
  hostname : Option (List UInt8)
  serverPort : ℤ
  isConnected : ℤ

/-- `tcp_sock_init`; `none` is a failed assertion. -/
def tcpSockInit (addr : TcpAddr) (net : Net) (o : Outcome) : Option (TcpAddr × Net × ℤ) :=
  if addr.serverPort ≠ 0 then none
  else if addr.socket = -1 then
    let (net, fd) := net.sockioNewSocket o
    let addr := { addr with socket := fd }
    let net := net.setNonblock fd
    if net.sockioSetTcpopt fd o < 0 then some (addr, net.close fd, -1)
    else match addr.hostname with
      | some name =>
        -- what the call returns is not looked at
        let (net, _) := net.sockioConnectSock fd name addr.port o
        some ({ addr with isConnected := 1 }, net, 0)
      | none => some (addr, net, 0)
  else some (addr, net, 0)

/-- `tcp_send_generic`. -/
def tcpSendGeneric (addr : TcpAddr) (net : Net) (o : Outcome) : Option (TcpAddr × Net × ℤ) :=
  if addr.isConnected = 0 then
    (tcpSockInit addr net o).map fun (addr, net, ret) =>
      if ret ≠ 0 then (addr, net, -1) else ({ addr with isConnected := 1 }, net, 0)
  else some (addr, net, 0)

/-! ## One call -/

variable {addr : TcpAddr} {net : Net} {o : Outcome}

theorem tcpSendGeneric_connected (h : addr.isConnected ≠ 0) :
    tcpSendGeneric addr net o = some (addr, net, 0) := if_neg h

/-- A socket number in the address is taken for a connection. -/
theorem tcpSendGeneric_stale (h : addr.isConnected = 0) (hserver : addr.serverPort = 0)
    (hsocket : addr.socket ≠ -1) :
    tcpSendGeneric addr net o = some ({ addr with isConnected := 1 }, net, 0) := by
  simp [tcpSendGeneric, tcpSockInit, h, hserver, hsocket]

/-- An address with a host name that was not connected yet. -/
def fresh (name : List UInt8) (port : ℤ) : TcpAddr := ⟨-1, port, some name, 0, 0⟩

/-- The address of a socket. -/
def onSocket (name : List UInt8) (port : ℤ) (net : Net) : TcpAddr :=
  { fresh name port with socket := net.nextFd }

variable {name : List UInt8} {port : ℤ}

/-- Without a socket a call fails and the address stays as it was. -/
theorem tcpSendGeneric_noSocket (name : List UInt8) (port : ℤ) (net : Net)
    (ho : o.socket = false) :
    ∃ net', tcpSendGeneric (fresh name port) net o = some (fresh name port, net', -1) := by
  have hfd : net.fds (-1) = none := net.unused _ (Or.inl (by decide))
  refine ⟨(net.setNonblock (-1)).close (-1), ?_⟩
  simp [tcpSendGeneric, tcpSockInit, fresh, Net.sockioNewSocket, ho, Net.sockioSetTcpopt,
    Net.setNonblock, Net.modify, hfd]

/-- A socket whose option cannot be set is closed, and the address keeps its number. -/
theorem tcpSendGeneric_noOption (name : List UInt8) (port : ℤ) (net : Net)
    (ho : o.socket = true) (hopt : o.setsockopt = false) :
    ∃ net', tcpSendGeneric (fresh name port) net o = some (onSocket name port net, net', -1) ∧
      net'.fds net.nextFd = none := by
  refine ⟨(net.attach.setNonblock net.nextFd).close net.nextFd, ?_, ?_⟩
  · simp [tcpSendGeneric, tcpSockInit, fresh, onSocket, Net.sockioNewSocket, ho,
      Net.sockioSetTcpopt, hopt]
  · simp [Net.close]

/-- The socket of a call that gets as far as `sockio_connect_sock`. -/
theorem Net.fds_setNonblock_attach (net : Net) :
    (net.attach.setNonblock net.nextFd).fds net.nextFd = some ⟨true, none⟩ := by
  simp [Net.setNonblock, Net.modify, Net.attach]

/-- A call with a socket and its option succeeds, whatever `sockio_connect_sock` does. -/
theorem tcpSendGeneric_option (name : List UInt8) (port : ℤ) (net : Net)
    (ho : o.socket = true) (hopt : o.setsockopt = true) :
    ∃ net', tcpSendGeneric (fresh name port) net o =
        some ({ onSocket name port net with isConnected := 1 }, net', 0) ∧
      (o.resolves = true → o.connect = true →
        net'.fds net.nextFd = some ⟨true, some (name, port)⟩) := by
  have hfd := net.fds_setNonblock_attach
  refine ⟨((net.attach.setNonblock net.nextFd).sockioConnectSock net.nextFd name port o).1,
    ?_, fun hres hcon => ?_⟩
  · simp [tcpSendGeneric, tcpSockInit, fresh, onSocket, Net.sockioNewSocket, ho,
      Net.sockioSetTcpopt, hopt, hfd]
  · simp [Net.sockioConnectSock, hres, hcon, Net.connectSockRestart_eq, hfd, Net.modify]

/-! ## Runs -/

/-- An address and the sockets. -/
structure State where
  addr : TcpAddr
  net : Net

/-- The state after a call. -/
def step (s : State) (o : Outcome) : Option State :=
  (tcpSendGeneric s.addr s.net o).map fun r => ⟨r.1, r.2.1⟩

/-- If the address is marked connected its socket is open and connected to its host. -/
def Honest (s : State) : Prop :=
  s.addr.isConnected = 1 → ∃ sock name, s.net.fds s.addr.socket = some sock ∧
    s.addr.hostname = some name ∧ sock.peer = some (name, s.addr.port)

/-- The system calls of a connection all succeed. -/
def Connects (o : Outcome) : Prop :=
  o.socket = true ∧ o.setsockopt = true ∧ o.resolves = true ∧ o.connect = true

/-- A call that cannot connect returns `-1`, and the next call connects anew. -/
def Clean (s : State) (o : Outcome) (s' : State) : Prop :=
  s.addr.isConnected = 0 → ¬Connects o →
    tcpSendGeneric s.addr s.net o = some (s'.addr, s'.net, -1) ∧
      s'.addr.isConnected = 0 ∧ s'.addr.socket = -1

/-- The address is connected, or the call gets no socket, or it connects. -/
def AllOrNothing (s : State) (o : Outcome) : Prop :=
  s.addr.isConnected ≠ 0 ∨ o.socket = false ∨ Connects o

/-- The address was not connected yet, or it is connected to its host. -/
def Inv (name : List UInt8) (port : ℤ) (s : State) : Prop :=
  s.addr = fresh name port ∨
    s.addr.isConnected = 1 ∧ s.addr.port = port ∧ s.addr.hostname = some name ∧
      ∃ sock, s.net.fds s.addr.socket = some sock ∧ sock.peer = some (name, port)

theorem Inv.honest {s : State} (h : Inv name port s) : Honest s := by
  intro hconnected
  rcases h with hfresh | ⟨-, hport, hname, sock, hfd, hpeer⟩
  · rw [hfresh] at hconnected
    cases hconnected
  · exact ⟨sock, name, hfd, hname, hport ▸ hpeer⟩

theorem Inv.step_allOrNothing {s : State} (h : Inv name port s) (hc : AllOrNothing s o) :
    ∃ s', step s o = some s' ∧ Clean s o s' ∧ Inv name port s' := by
  obtain ⟨addr, net⟩ := s
  rcases h with hfresh | hinv
  · obtain rfl : addr = fresh name port := hfresh
    rcases hc with hne | hnone | hall
    · exact absurd rfl hne
    · obtain ⟨net', hsend⟩ := tcpSendGeneric_noSocket name port net hnone
      exact ⟨⟨_, net'⟩, by rw [step, hsend]; rfl, fun _ _ => ⟨hsend, rfl, rfl⟩, Or.inl rfl⟩
    · obtain ⟨ho, hopt, hres, hcon⟩ := id hall
      obtain ⟨net', hsend, hfd⟩ := tcpSendGeneric_option name port net ho hopt
      exact ⟨⟨_, net'⟩, by rw [step, hsend]; rfl, fun _ hno => absurd hall hno,
        Or.inr ⟨rfl, rfl, rfl, _, hfd hres hcon, rfl⟩⟩
  · have hne : addr.isConnected ≠ 0 := by
      rw [hinv.1]
      decide
    exact ⟨⟨addr, net⟩, by rw [step, tcpSendGeneric_connected hne]; rfl, fun h => absurd h hne,
      Or.inr hinv⟩

theorem Inv.allOrNothing {s s' : State} (h : Inv name port s) (hstep : step s o = some s')
    (hclean : Clean s o s') : AllOrNothing s o := by
  obtain ⟨addr, net⟩ := s
  by_contra hno
  obtain ⟨hzero, hsocket, hfails⟩ : addr.isConnected = 0 ∧ o.socket = true ∧ ¬Connects o := by
    simpa [AllOrNothing] using hno
  rcases h with hfresh | ⟨hconnected, -⟩
  · obtain rfl : addr = fresh name port := hfresh
    obtain ⟨hsend, -, hminus⟩ := hclean rfl hfails
    cases hopt : o.setsockopt with
    | false =>
      obtain ⟨net', hsend', -⟩ := tcpSendGeneric_noOption name port net hsocket hopt
      rw [hsend', Option.some.injEq, Prod.mk.injEq] at hsend
      rw [← hsend.1] at hminus
      simp only [onSocket] at hminus
      omega
    | true =>
      obtain ⟨net', hsend', -⟩ := tcpSendGeneric_option name port net hsocket hopt
      rw [hsend'] at hsend
      simp at hsend
  · exact absurd (hconnected.symm.trans hzero) (by decide)

/-- In a run an address is marked connected only when it is, and a call that cannot connect
leaves it to the next one, if and only if no call gets a socket and then fails. -/
theorem runs_connected_iff (name : List UInt8) (port : ℤ) (net : Net) (calls : List Outcome) :
    Runs.Always step Honest Clean ⟨fresh name port, net⟩ calls ↔
      Runs.Each step AllOrNothing ⟨fresh name port, net⟩ calls :=
  Runs.always_iff_each_of_step (I := Inv name port) (fun _ h => h.honest)
    (fun _ _ h hc => h.step_allOrNothing hc)
    (fun _ _ _ h hstep hclean _ => h.allOrNothing hstep hclean) (Or.inl rfl)

/-- A call whose option cannot be set, and one that cannot connect. -/
def noOption : Outcome := ⟨true, false, true, 0, true⟩

/-- A call that cannot connect. -/
def refused : Outcome := ⟨true, true, true, 0, false⟩

/-- No sockets. -/
def Net.none : Net := ⟨fun _ => .none, 0, fun _ _ => rfl⟩

/-- A call that cannot connect, and one whose option cannot be set, leave the address as it should
not be : after the second, a call marks it connected on a descriptor that is closed. -/
theorem connected_counterexample :
    ¬Runs.Always step Honest Clean ⟨fresh [] 80, .none⟩ [refused] ∧
    ¬Runs.Always step Honest Clean ⟨fresh [] 80, .none⟩ [noOption] ∧
    ∃ s, Runs.exec step ⟨fresh [] 80, .none⟩ [noOption, refused] = some s ∧
      s.addr.isConnected = 1 ∧ s.net.fds s.addr.socket = none := by
  have hinv : Inv [] 80 ⟨fresh [] 80, .none⟩ := Or.inl rfl
  refine ⟨?_, ?_, _, rfl, rfl, rfl⟩
  · rintro ⟨-, s', hstep, hclean, -⟩
    have hall := hinv.allOrNothing hstep hclean
    simp [AllOrNothing, Connects, refused, fresh] at hall
  · rintro ⟨-, s', hstep, hclean, -⟩
    have hall := hinv.allOrNothing hstep hclean
    simp [AllOrNothing, Connects, noOption, fresh] at hall

end Tcp

end Agilefs
