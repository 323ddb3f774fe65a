import Mathlib.Logic.Function.Basic
import NetLibrary.Model.TcpConn

/-!
# The server of `raw-example`

The loop of `raw-example/epoll.cc` and its handlers, call by call. Beside the map `cons` there are the sockets
of the clients that are open, with what was read from each and written to it. The program has one thread,
so what it does with one event is not interrupted, and the events that one `epoll_wait` reports are handled one
after the other.
-/

namespace NetLibrary.RawServer
open Function TcpConn

structure Con where
  readed : List UInt8 := []
  written : Nat := 0
  deriving DecidableEq, Repr

/-- A client's socket in the kernel. -/
structure Sock where
  /-- The sockets are numbered as they are accepted. -/
  id : Nat
  /-- What `updateEvents` has registered. -/
  events : BitVec 32
  received : List UInt8 := []
  sent : List UInt8 := []
  /-- How many times a `read` has ended in a blank line. -/
  asked : Nat := 0
  deriving DecidableEq, Repr

def EPOLLIN : BitVec 32 := 0x1
def EPOLLOUT : BitVec 32 := 0x4
def EPOLLERR : BitVec 32 := 0x8
def EPOLLHUP : BitVec 32 := 0x10

/-- An element of `actEvents`. -/
structure Active where
  fd : Nat
  event : BitVec 32
  deriving DecidableEq, Repr

inductive Ctl
  /-- Before `epoll_wait`. -/
  | wait
  /-- In the loop of `once_loop`. -/
  | loop
  /-- Before `accept`. -/
  | accept
  /-- Before a `read` in `handleRead`. -/
  | read (fd : Nat)
  /-- Before a `write` in `sendRes`. It returns to `handleRead`, or to `handleWrite` if `back` is not set. -/
  | write (fd left : Nat) (back : Bool)
  | exited
  deriving DecidableEq, Repr

structure State where
  cons : Nat → Option Con := fun _ => none
  socks : Nat → Option Sock := fun _ => none
  accepted : Nat := 0
  /-- The events that are still to come. -/
  active : List Active := []
  ctl : Ctl := .wait

inductive Event
  | wait (active : List Active)
  | dispatch (fd : Nat)
  | accept (r : Option Nat)
  | read (fd : Nat) (r : ReadRet)
  | write (fd : Nat) (r : WriteRet)
  | done

/-- `"\n\n"` or `"\r\n\r\n"` at the end. -/
def blank (readed : List UInt8) : Bool :=
  readed.drop (readed.length - 2) == [10, 10] || readed.drop (readed.length - 4) == [13, 10, 13, 10]

def Sock.hear (sock : Sock) (bytes : List UInt8) : Sock :=
  { sock with
    received := sock.received ++ bytes
    asked := if blank (sock.received ++ bytes) then sock.asked + 1 else sock.asked }

def Sock.push (sock : Sock) (bytes : List UInt8) : Sock := { sock with sent := sock.sent ++ bytes }

variable (httpstr : List UInt8)

namespace State

/-- `cons[fd]`. -/
def con (s : State) (fd : Nat) : Con := (s.cons fd).getD {}

def erase (s : State) (fd : Nat) : State := { s with cons := update s.cons fd none }

/-- `close(fd)`, which fails if it is not open. -/
def close (s : State) (fd : Nat) : State := { s with socks := update s.socks fd none }

/-- `sendRes` before its first `write`. -/
def sendRes (s : State) (fd : Nat) (back : Bool) : State :=
  { s with
    cons := update s.cons fd (some (s.con fd))
    ctl := .write fd (httpstr.length - (s.con fd).written) back }

/-- The end of `sendRes`. -/
def ret (s : State) (fd : Nat) (back : Bool) : State := { s with ctl := if back then .read fd else .loop }

/-- After `accept`, `setNonBlock` and `updateEvents`. -/
def accept (s : State) : Option Nat → State
  | none => { s with ctl := .exited }
  | some fd => { s with
    socks := update s.socks fd (some { id := s.accepted, events := EPOLLIN })
    accepted := s.accepted + 1
    ctl := .loop }

/-- What `handleRead` does with the result of a `read`. -/
def handleRead (s : State) (fd : Nat) : ReadRet → State
  | .data [] | .error (.other _) | .error .EINTR =>
    let s := (s.close fd).erase fd
    { s with ctl := .loop }
  | .error .EAGAIN => { s with ctl := .loop }
  | .data bytes =>
    let readed := (s.con fd).readed ++ bytes
    let s := { s with
      cons := update s.cons fd (some { s.con fd with readed })
      socks := update s.socks fd ((s.socks fd).map fun sock => Sock.hear sock bytes) }
    if 4 < readed.length && blank readed then s.sendRes httpstr fd true else { s with ctl := .read fd }

/-- What `sendRes` does with the result of a `write`. -/
def write (s : State) (fd left : Nat) (back : Bool) : WriteRet → State
  | .ret (n + 1) => { s with
    cons := update s.cons fd (some { s.con fd with written := (s.con fd).written + (n + 1) })
    socks := update s.socks fd
      ((s.socks fd).map fun sock => Sock.push sock ((httpstr.drop (s.con fd).written).take (n + 1)))
    ctl := .write fd (left - (n + 1)) back }
  | r =>
    if left = 0 then (s.erase fd).ret fd back
    else if r = .error .EAGAIN then s.ret fd back
    else ((s.close fd).erase fd).ret fd back

/-- The branches of `once_loop`. -/
def dispatch (s : State) (sersock fd : Nat) (event : BitVec 32) : State :=
  if event &&& (EPOLLIN ||| EPOLLERR) ≠ 0 then
    if fd = sersock then { s with ctl := .accept } else { s with ctl := .read fd }
  else if event &&& EPOLLOUT ≠ 0 then s.sendRes httpstr fd false
  else { s with ctl := .exited }

/-- What is registered for a descriptor. The server's own one is registered with `EPOLLIN` at the start. -/
def registered (s : State) (sersock fd : Nat) : Option (BitVec 32) :=
  if fd = sersock then some EPOLLIN else (s.socks fd).map Sock.events

end State

/-- A server that listens at the descriptor `sersock`, in a loop without end. -/
inductive Step (sersock : Nat) : State → Event → State → Prop
  /-- Each descriptor is reported once, for events that are registered, or an error or the end of the
  connection. -/
  | wait {s : State} {active} : s.ctl = .wait → active.length ≤ 20 → (active.map Active.fd).Nodup →
    (∀ a ∈ active, ∃ events, s.registered sersock a.fd = some events ∧
      a.event &&& ~~~(events ||| EPOLLERR ||| EPOLLHUP) = 0) →
    Step sersock s (.wait active) { s with active, ctl := .loop }
  | dispatch {s : State} {fd event active} : s.ctl = .loop → s.active = ⟨fd, event⟩ :: active →
    Step sersock s (.dispatch fd) (State.dispatch httpstr { s with active } sersock fd event)
  | done {s : State} : s.ctl = .loop → s.active = [] → Step sersock s .done { s with ctl := .wait }
  | accept {s : State} {r} : s.ctl = .accept → (∀ fd, r = some fd → fd ≠ sersock ∧ s.socks fd = none) →
    Step sersock s (.accept r) (s.accept r)
  /-- A `read` of a descriptor that `sendRes` has closed fails. -/
  | read {s : State} {fd r} : s.ctl = .read fd → (∀ bytes, r = .data bytes → bytes.length ≤ 4096) →
    (s.socks fd = none → ∃ e, r = .error (.other e)) → Step sersock s (.read fd r) (s.handleRead httpstr fd r)
  | write {s : State} {fd left back r} : s.ctl = .write fd left back → (∀ n, r = .ret n → n ≤ left) →
    Step sersock s (.write fd r) (s.write httpstr fd left back r)

end NetLibrary.RawServer
