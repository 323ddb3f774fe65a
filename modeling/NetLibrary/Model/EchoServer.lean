import Mathlib.Logic.Function.Basic
import NetLibrary.Model.Echo

/-!
# The echo server with all its clients

`TestTcpServer` of `main.cpp`: `handleAccept` of `tcpServer.cpp`, the loop that runs its tasks, the connections
that they attach, and the callback, which they all have. All of it is one thread, so a handler is not
interrupted by that of another connection. In the kernel there is for every open descriptor of an accepted
socket the client at the other end. A descriptor that was closed may be given out again.
-/

namespace NetLibrary.EchoServer
open Function TcpConn Echo

/-- A client, with the streams between it and the server. -/
structure Client where
  /-- What it has written, and what of this nobody has read. -/
  sent : List UInt8 := []
  up : List UInt8 := []
  /-- What its socket has taken from the server, and what of this it has read. -/
  down : List Cell := []
  received : List Cell := []
  deriving DecidableEq

/-- A connection. The program does not know its client. -/
structure Con where
  conn : TcpConn
  client : Nat
  deriving DecidableEq

/-- What `addcon` makes of a new `TcpConn` when it has attached it. -/
def Con.attached (w : World) (client : Nat) : Con := ⟨{ w.conn with readcb := true }, client⟩

structure State where
  clients : List Client := []
  /-- The clients that are connected and not accepted. -/
  backlog : List Nat := []
  socks : Int → Option Nat := fun _ => none
  /-- The closures `addcon` in the queue of the loop, each with its `clifd` and the client. -/
  tasks : List (Int × Nat) := []
  conns : List Con := []
  poller : PollerEpoll := {}
  /-- The static counter in `Channel::Channel`. -/
  lastId : Nat := 0
  /-- The connection whose handler is running, where `ctl` says that there is one. -/
  cur : Nat := 0
  ctl : Ctl := .user .event
  called : Bool := false

inductive Event
  | connect
  | write (k : Nat) (bytes : List UInt8)
  | read (k n : Nat)
  /-- A turn of the loop in `handleAccept`; `named` if `getpeername` and `getsockname` do not fail. -/
  | accept (fd : Int) (named : Bool)
  | addcon (fd : Int)
  | wait (evs : List Active)
  | skip
  /-- What a connection does, without the events of the others. -/
  | conn (i : Nat) (e : TcpConn.Event)
  | openOther (fd : Int) (events : BitVec 16)
  | closeOther (ch : Channel)

namespace State

/-- The kernel gives out descriptors that are not in use. -/
def Unused (s : State) (fd : Int) : Prop :=
  0 ≤ fd ∧ s.socks fd = none ∧ ∀ i ∈ s.poller.interest, i.fd ≠ fd

/-- A connection alone, before the next thing that it does. Nothing has been written then. -/
def view (s : State) (c : Con) : Sys := ⟨{ conn := c.conn, poller := s.poller, lastId := s.lastId }, s.ctl⟩

/-- The client that the descriptor of a connection leads to. -/
def sock (s : State) (c : Con) : Option Nat :=
  c.conn.channel.bind fun ch => if 0 ≤ ch.fd then s.socks ch.fd else none

/-- What is there to be read from the descriptor of a connection. -/
def incoming (s : State) (c : Con) : List UInt8 :=
  match (s.sock c).bind (s.clients[·]?) with
  | some p => p.up
  | none => []

/-- These bytes are read from the descriptor of a connection, and `wire` is written to it. -/
def transfer (s : State) (c : Con) (bytes : List UInt8) (wire : List Cell) : List Client :=
  match s.sock c with
  | some k => s.clients.modify k fun p => { p with up := p.up.drop bytes.length, down := p.down ++ wire }
  | none => s.clients

/-- The descriptors after `Channel::close`, if that is what happens. -/
def socksAfter (s : State) (c : Con) : TcpConn.Event → Int → Option Nat
  | .close _ =>
    match c.conn.channel with
    | some ch => if 0 < ch.fd then update s.socks ch.fd none else s.socks
    | none => s.socks
  | _ => s.socks

/-- No connection has the channel with this number. -/
def Other (s : State) (id : Option Nat) : Prop := ∀ c ∈ s.conns, (s.view c).w.Other id

end State

/-- The events of a connection that are its own. -/
def own : TcpConn.Event → Bool
  | .send .. | .write _ | .readcbEnd | .handleRead _ | .handleWrite _ | .read _ | .close _ => true
  | .attach _ | .onRead | .useInput _ | .wait _ | .skip | .openOther .. | .closeOther _ => false

inductive Step : State → Event → State → Prop
  | connect {s : State} :
    Step s .connect { s with clients := s.clients ++ [{}], backlog := s.backlog ++ [s.clients.length] }
  | write {s : State} {k bytes} : Step s (.write k bytes)
      { s with clients := s.clients.modify k fun p => { p with sent := p.sent ++ bytes, up := p.up ++ bytes } }
  | read {s : State} {k n} : (∀ p, s.clients[k]? = some p → p.received.length + n ≤ p.down.length) →
    Step s (.read k n)
      { s with clients := s.clients.modify k fun p =>
          { p with received := p.down.take (p.received.length + n) } }
  | accept {s : State} {k backlog fd named} : s.ctl = .user .event → s.backlog = k :: backlog →
    s.Unused fd → Step s (.accept fd named)
      { s with
        backlog
        socks := update s.socks fd (some k)
        tasks := if named then s.tasks ++ [(fd, k)] else s.tasks }
  | addcon {s : State} {fd k tasks w} : s.ctl = .user .event → s.tasks = (fd, k) :: tasks →
    World.attach { poller := s.poller, lastId := s.lastId } fd = w →
    Step s (.addcon fd)
      { s with
        tasks
        poller := w.poller
        lastId := w.lastId
        conns := s.conns ++ [.attached w k] }
  | wait {s : State} {evs} : s.ctl = .user .event → s.poller.lastActive < 0 → s.poller.Ready evs →
    Step s (.wait evs) { s with poller := s.poller.wait evs }
  /-- The next event is of another channel, of none any more, or there is none. -/
  | skip {s : State} {poller e} : s.ctl = .user .event → 0 ≤ s.poller.lastActive →
    s.poller.next = (poller, e) → s.Other (e.bind Active.ptr) → Step s .skip { s with poller }
  | skipUnknown {s : State} {poller e} : s.ctl = .user .event → s.poller.next = (poller, some e) →
    isRead e.events = false → isWrite e.events = false → Step s .skip { s with poller }
  | conn {s : State} {i c e t called} : s.conns[i]? = some c →
    s.ctl = .user .event ∨ s.cur = i → own e = true → Callback s.called s.ctl e called →
    TcpConn.Step (s.view c) e t → taken (s.view c).w e <+: s.incoming c →
    Step s (.conn i e)
      { s with
        clients := s.transfer c (taken (s.view c).w e) t.w.wire
        socks := s.socksAfter c e
        conns := s.conns.set i { c with conn := t.w.conn }
        poller := t.w.poller
        lastId := t.w.lastId
        cur := i
        ctl := t.ctl
        called }
  | openOther {s : State} {fd events} : s.Unused fd →
    Step s (.openOther fd events)
      { s with
        poller := s.poller.addChannel ⟨s.lastId + 1, fd, events⟩
        lastId := s.lastId + 1 }
  /-- It is a channel on a descriptor that `accept` has not returned. -/
  | closeOther {s : State} {ch : Channel} : s.Other (some ch.id) → s.socks ch.fd = none →
    ⟨ch.fd, ch.id, ch.events⟩ ∈ s.poller.interest →
    Step s (.closeOther ch) { s with poller := (s.poller.removeChannel ch).closeFd ch.fd }

end NetLibrary.EchoServer
