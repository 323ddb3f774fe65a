import NetLibrary.Model.EventLoop
import NetLibrary.Model.LifeCycle

/-!
# The TCP server

`handleAccept` of `tcpServer.cpp` with the event loop that runs the tasks which it posts. A descriptor goes
from `accept` into the closure `addcon`, with this into the queue of the event loop, and then to the
channel of a `TcpConn`. The loop thread is in `handleAccept` or elsewhere, the other threads go on in any
case, and the attached connections do all they can do except to be attached again by their users.
-/

namespace NetLibrary.TcpServer
open Threads TcpConn

/-- What `accept`, `getpeername` and `getsockname` return in one turn of the loop in `handleAccept`; `α` is
for `Ip4Addr`, and `none` for a call that fails. -/
structure Accepted (α : Type) where
  clifd : Int
  peer : Option α
  localAddr : Option α

/-- A closure in the queue of the event loop. -/
inductive Task (α : Type)
  /-- With what it has captured; its `con` is a new `TcpConn`, which nobody else has. -/
  | addcon (clifd : Int) (localAddr peer : α)
  | other

/-- The closure that a turn posts. Where it posts none, it has gone on with the next `accept`. -/
def Accepted.addcon {α : Type} (a : Accepted α) : Option (Task α) :=
  match a.peer, a.localAddr with
  | some peer, some localAddr => some (.addcon a.clifd localAddr peer)
  | _, _ => none

structure Server (α : Type) where
  base : Nat
  listenfd : Int
  readcb : Bool := false
  /-- In `handleAccept`. -/
  accepting : Bool := false
  loop : EventLoop.Sys (Task α)
  poller : PollerEpoll := {}
  /-- The static counter in `Channel::Channel`. -/
  lastId : Nat := 0
  /-- The connections that `addcon` has attached. -/
  conns : List (Life α) := []
  /-- In the kernel: what `accept` has returned, and whether it has been closed. -/
  sockets : List (Int × Bool) := []

variable {α : Type}

/-- With a pipe, a queue and `n` threads beside the loop thread as in `EventLoop.Sys.init`. -/
def Server.init (α : Type) (base : Nat) (listenfd : Int) (taskCapacity : Int) (n : Nat) : Server α where
  base
  listenfd
  loop := .init (Task α) taskCapacity n

/-- `accept` returns a descriptor that is not open. -/
def Server.Unused (s : Server α) (fd : Int) : Prop := 0 ≤ fd ∧ ∀ k ∈ s.sockets, k.2 = false → k.1 ≠ fd

/-- `::close(fd)`, in the kernel. -/
def closeFd (fd : Int) (sockets : List (Int × Bool)) : List (Int × Bool) :=
  sockets.map fun k => if k.1 = fd then (k.1, true) else k

/-- A connection with the poller that all share. -/
def Server.view (s : Server α) (l : Life α) : Life α :=
  { l with w := { l.w with poller := s.poller, lastId := s.lastId } }

/-- The steps of the event loop beside `handleAccept` and `addcon`. -/
def Server.Allows (s : Server α) : EventLoop.Event (Task α) → Prop
  | .push i v _ => v = .other ∧ (s.accepting = true → i ≠ 0)
  | .store i | .wakeup i => s.accepting = true → i ≠ 0
  | .write _ => True
  | .taskEnd v => v = .other ∧ s.accepting = false
  | .loop | .test | .poll _ | .read | .pop _ | .dispatchEnd | .timersEnd => s.accepting = false

/-- What happens to an attached connection and does not close its channel. -/
def handles : Life.Event α → Bool
  | .connect | .onRead | .useInput _ | .callbackEnd | .handleRead _ | .handleWrite _ | .read _ => true
  | .attach .. | .attachEnd | .close _ => false

inductive Event (α : Type)
  | loop (e : EventLoop.Event (Task α))
  | onConnRead (readcb : Bool)
  | handleAccept
  /-- A turn of the loop, and whether it has put `addcon` into the queue. -/
  | accept (a : Accepted α) (added : Bool)
  /-- `accept` fails and `handleAccept` returns. -/
  | acceptEnd
  | addcon (clifd : Int) (localAddr peer : α)
  | conn (i : Nat) (e : Life.Event α)
  /-- `Channel::close` for the connection `i`, which has this descriptor. -/
  | close (i : Nat) (fd : Int) (p : PollRet)

inductive Step [Inhabited α] (P : Nat) : Server α → Event α → Server α → Prop
  | loop {s : Server α} {e loop} : s.Allows e → EventLoop.Step P s.loop e loop →
    Step P s (.loop e) { s with loop }
  | onConnRead {s : Server α} {readcb} : Step P s (.onConnRead readcb) { s with readcb }
  | handleAccept {s : Server α} {last wake} : s.accepting = false → 0 < s.listenfd →
    s.loop.pc = .dispatch last wake → At s.loop.calls 0 .none →
    Step P s .handleAccept { s with accepting := true }
  | accept {s : Server α} {a v added loop} : s.accepting = true → s.Unused a.clifd →
    a.addcon = some v → EventLoop.Step P s.loop (.push 0 v added) loop →
    Step P s (.accept a added) { s with loop, sockets := s.sockets ++ [(a.clifd, false)] }
  /-- `continue`. -/
  | acceptNext {s : Server α} {a} : s.accepting = true → s.Unused a.clifd →
    a.addcon = none → At s.loop.calls 0 .none →
    Step P s (.accept a false) { s with sockets := s.sockets ++ [(a.clifd, false)] }
  | acceptEnd {s : Server α} : s.accepting = true → At s.loop.calls 0 .none →
    Step P s .acceptEnd { s with accepting := false }
  | addcon {s : Server α} {clifd localAddr peer loop l} : s.accepting = false →
    EventLoop.Step P s.loop (.taskEnd (.addcon clifd localAddr peer)) loop →
    Life.Step (s.view { localAddr := default, peer := default })
      (.attach s.base s.poller clifd localAddr peer) l →
    Step P s (.addcon clifd localAddr peer) { s with
      loop
      poller := l.w.poller
      lastId := l.w.lastId
      conns := s.conns ++ [{ l with w := { l.w with conn := { l.w.conn with readcb := s.readcb } } }] }
  | conn {s : Server α} {a b : List (Life α)} {l l' e} : s.accepting = false → s.conns = a ++ l :: b →
    handles e = true → Life.Step (s.view l) e l' →
    Step P s (.conn a.length e) { s with
      poller := l'.w.poller
      lastId := l'.w.lastId
      conns := a ++ l' :: b }
  | close {s : Server α} {a b : List (Life α)} {l l' ch p} : s.accepting = false → s.conns = a ++ l :: b →
    l.w.conn.channel = some ch → Life.Step (s.view l) (.close p) l' →
    Step P s (.close a.length ch.fd p) { s with
      poller := l'.w.poller
      lastId := l'.w.lastId
      conns := a ++ l' :: b
      sockets := if 0 < ch.fd then closeFd ch.fd s.sockets else s.sockets }

end NetLibrary.TcpServer
