import NetLibrary.Model.Buffer
import NetLibrary.Model.Poller

/-!
# A TCP connection

`TcpConn` of `tcpConn.h` and `tcpConn.cpp` with its channel, the poller and the socket. The loop
thread runs one function at a time. A step is what it does between two points at which the outside
answers: a system call of `isend` or `handleRead`, and a call of the users' read callback (`Ctl`).

`fatalif` only logs. The steps are those of users who keep to what it tests in `attach`, so
`channel_` is null there and `delete channel_` does nothing.
-/

namespace NetLibrary

/-- The values of `errno` that the source tells apart; `EWOULDBLOCK` is `EAGAIN`. -/
inductive Errno
  | EINTR
  | EAGAIN
  | other (e : Int)
  deriving DecidableEq, Repr

/-- The result of `writeImp`. -/
inductive WriteRet
  | ret (n : Nat)
  | error (e : Errno)
  deriving DecidableEq, Repr

/-- The result of `readImp`: the bytes that it has stored, none of them at the end of the stream. -/
inductive ReadRet
  | data (bytes : List UInt8)
  | error (e : Errno)
  deriving DecidableEq, Repr

/-- The result of `poll` and the `revents` that it stored. -/
structure PollRet where
  r : Int
  revents : BitVec 16
  deriving DecidableEq, Repr

inductive Status
  | invalid
  | handshaking
  | connected
  | closed
  | failed
  deriving DecidableEq, Repr

structure TcpConn where
  channel : Option Channel := none
  state : Status := .invalid
  destPort : Int := -1
  /-- Whether `readcb_` is set. -/
  readcb : Bool := false
  input : Buffer := {}
  output : Buffer := {}
  deriving DecidableEq

namespace TcpConn

/-- What `handleRead` does when `readcb_` returns: it returns, or it goes on in `cleanup`. -/
inductive After
  | ret
  | cleanup
  deriving DecidableEq, Repr

/-- Who runs users' code: an event that is not of this connection, or its read callback. -/
inductive Caller
  | event
  | readcb (after : After)
  deriving DecidableEq, Repr

/-- Where the loop thread is. -/
inductive Ctl
  | user (c : Caller)
  /-- Before the next call of `readImp` in `handleRead`. -/
  | reading
  /-- Before the next call of `writeImp` in `isend`, for a `send` of `msg` that `c` has called. If
  `own`, `msg` is the connection's `input_`. -/
  | sending (msg : Buffer) (sended : Nat) (own : Bool) (c : Caller)
  deriving DecidableEq

structure World where
  conn : TcpConn := {}
  poller : PollerEpoll := {}
  /-- The static counter in `Channel::Channel`. -/
  lastId : Nat := 0
  /-- The bytes that the socket has accepted. -/
  wire : List Cell := []
  deriving DecidableEq

namespace World

/-- A change of the events of `channel_`. -/
def updateChannel (w : World) (ch : Channel) : World :=
  { w with conn := { w.conn with channel := some ch }, poller := w.poller.updateChannel ch }

/-- `Channel::Channel`. -/
def newChannel (w : World) (fd : Int) (events : BitVec 16) : World × Channel :=
  let ch : Channel := ⟨w.lastId + 1, fd, events⟩
  ({ w with lastId := w.lastId + 1, poller := w.poller.addChannel ch }, ch)

/-- The test of `fatalif` in `attach`. -/
def attachable (w : World) : Prop :=
  ¬(w.conn.destPort ≤ 0 ∧ w.conn.state ≠ .invalid ∨
    0 < w.conn.destPort ∧ w.conn.state ≠ .handshaking)

def attach (w : World) (fd : Int) : World :=
  let (w, ch) := w.newChannel fd (writeEvent ||| readEvent)
  { w with conn := { w.conn with state := .handshaking, channel := some ch } }

/-- `cleanup` after its call of `readcb_`. -/
def finishCleanup (w : World) : World :=
  { w with conn := { w.conn with
      state := if w.conn.state = .handshaking then .failed else .closed
      readcb := false } }

def cleanup (w : World) : World × Ctl :=
  if w.conn.readcb && w.conn.input.size != 0 then (w, .user (.readcb .cleanup))
  else (w.finishCleanup, .user .event)

/-- `poll` ignores a descriptor that is negative. -/
def poll (ch : Channel) (p : PollRet) : PollRet := if ch.fd < 0 then ⟨0, 0⟩ else p

/-- `handleHandshake`; `none` is its result 0, and otherwise it has called `cleanup`. -/
def handleHandshake (w : World) (ch : Channel) (p : PollRet) : World × Option Ctl :=
  if (poll ch p).r = 1 ∧ (poll ch p).revents = writeEvent then
    let w := w.updateChannel (ch.enableReadWrite true false)
    ({ w with conn := { w.conn with state := .connected } }, none)
  else
    let (w, ctl) := w.cleanup
    (w, some ctl)

/-- `handleRead` up to its loop. -/
def handleRead (w : World) (ch : Channel) (p : PollRet) : World × Ctl :=
  match w.conn.state with
  | .handshaking =>
    match w.handleHandshake ch p with
    | (w, none) => (w, .reading)
    | (w, some ctl) => (w, ctl)
  | .connected => (w, .reading)
  | _ => (w, .user .event)

/-- The body of the loop in `handleRead`. The state does not change before it ends. -/
def readTurn (w : World) (ch : Channel) (r : ReadRet) : World × Ctl :=
  let w := { w with conn := { w.conn with input := w.conn.input.makeRoom' } }
  match if 0 ≤ ch.fd then r else .data [] with
  | .error .EINTR => (w, .reading)
  | .error .EAGAIN =>
    (w, .user (if w.conn.readcb && w.conn.input.size != 0 then .readcb .ret else .event))
  | .error (.other _) | .data [] => w.cleanup
  | .data bytes =>
    let input := (w.conn.input.store w.conn.input.e (bytes.map some)).addSize bytes.length
    ({ w with conn := { w.conn with input } }, .reading)

/-- In the states but `Handshaking` it does nothing. -/
def handleWrite (w : World) (ch : Channel) (p : PollRet) : World × Ctl :=
  match w.conn.state with
  | .handshaking =>
    match w.handleHandshake ch p with
    | (w, none) => (w, .user .event)
    | (w, some ctl) => (w, ctl)
  | _ => (w, .user .event)

/-- `send` up to the call of `isend`, with what is left of `msg`. -/
def send (w : World) (msg : Buffer) : World × Buffer :=
  match w.conn.channel with
  | some ch =>
    if ch.writeEnable then
      let (output, msg) := w.conn.output.absorb msg
      ({ w with conn := { w.conn with output } }, msg)
    else (w, msg)
  | none => (w, msg)

/-- The body of the loop in `isend`: the new `sended`, and whether the loop may go on. -/
def isendTurn (w : World) (ch : Channel) (buf : List Cell) (sended : Nat) :
    WriteRet → World × Nat × Bool
  | .ret n =>
    if 0 < n then ({ w with wire := w.wire ++ (buf.drop sended).take n }, sended + n, true)
    else (w, sended, false)
  | .error .EINTR => (w, sended, true)
  | .error .EAGAIN =>
    (if ch.writeEnable then w else w.updateChannel (ch.enableWrite true), sended, true)
  | .error (.other _) => (w, sended, false)

/-- The buffer that was passed to `send` has become `msg`. -/
def setMsg (w : World) (own : Bool) (msg : Buffer) : World :=
  if own then { w with conn := { w.conn with input := msg } } else w

/-- `isend` from a test of its loop on, with the results of its calls of `writeImp`: `sended`, and the
results that it has not used. It is `none` as long as the loop needs another one. -/
def isend (w : World) (buf : List Cell) (sended : Nat) (rets : List WriteRet) :
    Option (World × Nat × List WriteRet) :=
  if buf.length ≤ sended then some (w, sended, rets)
  else
    match rets with
    | [] => none
    | r :: rets =>
      match w.conn.channel with
      | none => none
      | some ch =>
        let (w, sended, more) := w.isendTurn ch buf sended r
        if more then isend w buf sended rets else some (w, sended, rets)

/-- A whole call of `send`: what is left of `msg`, and the results that it has not used. -/
def sendRun (w : World) (msg : Buffer) (own : Bool) (rets : List WriteRet) :
    Option (World × Buffer × List WriteRet) :=
  let (w, msg) := w.send msg
  if w.conn.channel = none ∨ msg.size = 0 then some (w.setMsg own msg, msg, rets)
  else
    (w.isend msg.content 0 rets).map fun (w, sended, rets) =>
      (w.setMsg own (msg.consume sended), msg.consume sended, rets)

/-- `Channel::close` of `channel_`; `p` is for `handleRead`. -/
def close (w : World) (ch : Channel) (p : PollRet) : World × Ctl :=
  if 0 < ch.fd then
    let poller := (w.poller.removeChannel ch).closeFd ch.fd
    let closed := { ch with fd := -1 }
    World.handleRead { w with poller, conn := { w.conn with channel := some closed } } closed p
  else (w, .user .event)

/-- `Channel::close` of another channel. -/
def closeOther (w : World) (ch : Channel) : World :=
  { w with poller := (w.poller.removeChannel ch).closeFd ch.fd }

end World

/-- What happens, and what the outside answers. -/
inductive Event
  | attach (fd : Int)
  | onRead
  | send (msg : WFBuffer) (own : Bool)
  | write (r : WriteRet)
  /-- The users' code leaves this in `input_`. -/
  | useInput (input : WFBuffer)
  | readcbEnd
  | wait (evs : List Active)
  /-- The next event of `loop_once` is of this connection. -/
  | handleRead (p : PollRet)
  | handleWrite (p : PollRet)
  /-- It is of another channel, of none any more, or there is none. -/
  | skip
  | read (r : ReadRet)
  /-- `Channel::close` is called for the connection's channel, as `~PollerEpoll` does. -/
  | close (p : PollRet)
  | openOther (fd : Int) (events : BitVec 16)
  | closeOther (ch : Channel)

/-- A connection and where the loop thread is. -/
structure Sys where
  w : World := {}
  ctl : Ctl := .user .event
  deriving DecidableEq

/-- A descriptor that no channel has. -/
def World.Fresh (w : World) (fd : Int) : Prop := 0 ≤ fd ∧ ∀ i ∈ w.poller.interest, i.fd ≠ fd

/-- The channel of this connection, or none, has drawn another number. -/
def World.Other (w : World) (id : Option Nat) : Prop := ∀ ch, w.conn.channel = some ch → id ≠ some ch.id

inductive Step : Sys → Event → Sys → Prop
  | attach {w : World} {fd} : w.attachable → w.Fresh fd →
    Step ⟨w, .user .event⟩ (.attach fd) ⟨w.attach fd, .user .event⟩
  | onRead {w : World} {c} : w.conn.readcb = false →
    Step ⟨w, .user c⟩ .onRead ⟨{ w with conn := { w.conn with readcb := true } }, .user c⟩
  | sendDone {w w' : World} {msg : WFBuffer} {own c left} :
    (own = true → w.conn.input = msg) → w.send msg = (w', left) →
    (w.conn.channel = none ∨ left.size = 0) →
    Step ⟨w, .user c⟩ (.send msg own) ⟨w'.setMsg own left, .user c⟩
  | send {w w' : World} {msg : WFBuffer} {own c ch left} :
    (own = true → w.conn.input = msg) → w.send msg = (w', left) →
    w.conn.channel = some ch → left.size ≠ 0 →
    Step ⟨w, .user c⟩ (.send msg own) ⟨w', .sending left 0 own c⟩
  | write {w w' : World} {msg sended own c ch r sended'} :
    w.conn.channel = some ch → w.isendTurn ch msg.content sended r = (w', sended', true) →
    sended' < msg.size → (ch.fd < 0 → ∃ e, r = .error (.other e)) →
    Step ⟨w, .sending msg sended own c⟩ (.write r) ⟨w', .sending msg sended' own c⟩
  | writeDone {w w' : World} {msg sended own c ch r sended' more} :
    w.conn.channel = some ch → w.isendTurn ch msg.content sended r = (w', sended', more) →
    (more = false ∨ sended' = msg.size) → (ch.fd < 0 → ∃ e, r = .error (.other e)) →
    Step ⟨w, .sending msg sended own c⟩ (.write r) ⟨w'.setMsg own (msg.consume sended'), .user c⟩
  | useInput {w : World} {c} {input : WFBuffer} :
    Step ⟨w, .user c⟩ (.useInput input) ⟨{ w with conn := { w.conn with input } }, .user c⟩
  | readcbRet {w : World} : Step ⟨w, .user (.readcb .ret)⟩ .readcbEnd ⟨w, .user .event⟩
  | readcbCleanup {w : World} :
    Step ⟨w, .user (.readcb .cleanup)⟩ .readcbEnd ⟨w.finishCleanup, .user .event⟩
  | wait {w : World} {evs} : w.poller.lastActive < 0 → w.poller.Ready evs →
    Step ⟨w, .user .event⟩ (.wait evs) ⟨{ w with poller := w.poller.wait evs }, .user .event⟩
  | handleRead {w w' : World} {poller e ch p ctl} :
    w.poller.next = (poller, some e) → w.conn.channel = some ch → e.ptr = some ch.id →
    isRead e.events = true → World.handleRead { w with poller } ch p = (w', ctl) →
    Step ⟨w, .user .event⟩ (.handleRead p) ⟨w', ctl⟩
  | handleWrite {w w' : World} {poller e ch p ctl} :
    w.poller.next = (poller, some e) → w.conn.channel = some ch → e.ptr = some ch.id →
    isRead e.events = false → isWrite e.events = true →
    World.handleWrite { w with poller } ch p = (w', ctl) →
    Step ⟨w, .user .event⟩ (.handleWrite p) ⟨w', ctl⟩
  | skip {w : World} {poller e} : 0 ≤ w.poller.lastActive → w.poller.next = (poller, e) →
    w.Other (e.bind Active.ptr) →
    Step ⟨w, .user .event⟩ .skip ⟨{ w with poller }, .user .event⟩
  | skipUnknown {w : World} {poller e} : w.poller.next = (poller, some e) →
    isRead e.events = false → isWrite e.events = false →
    Step ⟨w, .user .event⟩ .skip ⟨{ w with poller }, .user .event⟩
  | read {w w' : World} {ch r ctl} : w.conn.channel = some ch →
    (∀ bytes, r = .data bytes → bytes.length ≤ w.conn.input.makeRoom'.space) →
    w.readTurn ch r = (w', ctl) → Step ⟨w, .reading⟩ (.read r) ⟨w', ctl⟩
  | close {w w' : World} {ch p ctl} : w.conn.channel = some ch → w.close ch p = (w', ctl) →
    Step ⟨w, .user .event⟩ (.close p) ⟨w', ctl⟩
  | openOther {w : World} {c fd events} : w.Fresh fd →
    Step ⟨w, .user c⟩ (.openOther fd events) ⟨(w.newChannel fd events).1, .user c⟩
  | closeOther {w : World} {c ch} : w.Other (some ch.id) →
    ⟨ch.fd, ch.id, ch.events⟩ ∈ w.poller.interest →
    Step ⟨w, .user c⟩ (.closeOther ch) ⟨w.closeOther ch, .user c⟩

end TcpConn

end NetLibrary
