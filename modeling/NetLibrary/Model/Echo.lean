import NetLibrary.Model.TcpConn

/-!
# The echo server

The program of `TestTcpServer` in `main.cpp` as one of its clients sees it. The callback that it passes
to `onConnRead` is `con->send(con->getInput())`. Between the client and the socket of its connection
there is a stream in either direction, which may be cut anywhere.
-/

namespace NetLibrary.Echo
open TcpConn

structure State where
  server : Sys := {}
  /-- The callback is running and has called `send`. -/
  called : Bool := false
  /-- What the client has written. -/
  sent : List UInt8 := []
  /-- What is on its way to the server. -/
  up : List UInt8 := []
  /-- What the client has read. -/
  received : List Cell := []

inductive Event
  | write (bytes : List UInt8)
  | read (n : Nat)
  /-- The task of `handleAccept`. -/
  | addcon (fd : Int)
  | server (e : TcpConn.Event)

/-- What the callback does next, and no users' code does anything else to the connection. -/
inductive Callback : Bool → Ctl → TcpConn.Event → Bool → Prop
  | send {msg after} : Callback false (.user (.readcb after)) (.send msg true) true
  | ret {after} : Callback true (.user (.readcb after)) .readcbEnd false
  | wait {called ctl evs} : Callback called ctl (.wait evs) called
  | handleRead {called ctl p} : Callback called ctl (.handleRead p) called
  | handleWrite {called ctl p} : Callback called ctl (.handleWrite p) called
  | skip {called ctl} : Callback called ctl .skip called
  | readImp {called ctl r} : Callback called ctl (.read r) called
  | writeImp {called ctl r} : Callback called ctl (.write r) called
  | close {called ctl p} : Callback called ctl (.close p) called
  | openOther {called ctl fd events} : Callback called ctl (.openOther fd events) called
  | closeOther {called ctl ch} : Callback called ctl (.closeOther ch) called

/-- What `readImp` takes out of the stream. It is not called for a descriptor that is closed. -/
def taken (w : World) : TcpConn.Event → List UInt8
  | .read (.data bytes) =>
    match w.conn.channel with
    | some ch => if 0 ≤ ch.fd then bytes else []
    | none => []
  | _ => []

inductive Step : State → Event → State → Prop
  | write {s : State} {bytes} :
    Step s (.write bytes) { s with sent := s.sent ++ bytes, up := s.up ++ bytes }
  | read {s : State} {n} : s.received.length + n ≤ s.server.w.wire.length →
    Step s (.read n) { s with received := s.server.w.wire.take (s.received.length + n) }
  | addcon {s : State} {fd t u} : TcpConn.Step s.server (.attach fd) t → TcpConn.Step t .onRead u →
    Step s (.addcon fd) { s with server := u }
  | server {s : State} {e t called up} : Callback s.called s.server.ctl e called →
    TcpConn.Step s.server e t → s.up = taken s.server.w e ++ up →
    Step s (.server e) { s with server := t, called, up }

end NetLibrary.Echo
