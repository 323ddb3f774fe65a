import NetLibrary.Model.TcpConn

/-!
# The life cycle of a TCP connection

`connect`, `attach`, `handleRead` and `handleWrite` of `tcpConn.cpp` in any order, for users who do not
keep to what `fatalif` tests: it only logs. So `attach` may find a channel, and `delete channel_` calls
`Channel::close`, which calls `handleRead` and with it the read callback, in which users may call `attach`
again. The calls that wait for a callback are a stack.
-/

namespace NetLibrary.TcpConn

/-- A call in progress. -/
inductive Call
  /-- The read callback, which is called by `handleRead` or by `cleanup`. -/
  | callback (after : After)
  /-- The loop of `handleRead`. -/
  | reading
  /-- `attach` after `delete channel_`, with the poller of its event loop. -/
  | attach (poller : PollerEpoll) (fd : Int)
  deriving DecidableEq

/-- Where a handler has left the loop thread. -/
def Ctl.calls : Ctl → List Call
  | .user .event => []
  | .user (.readcb after) => [.callback after]
  | .reading => [.reading]
  | .sending .. => []

/-- A connection with all that `attach` sets. Event loops are numbered, and `w.poller` is the poller of
`base`; `α` is for `Ip4Addr`. -/
structure Life (α : Type) where
  w : World := {}
  base : Option Nat := none
  localAddr : α
  peer : α
  /-- The calls in progress, the innermost first. -/
  calls : List Call := []

namespace Life

variable {α : Type}

/-- Users' code is running, in the event loop or in the read callback. -/
def userTurn (l : Life α) : Bool :=
  match l.calls with
  | [] | .callback _ :: _ => true
  | .reading :: _ | .attach .. :: _ => false

/-- `attach` up to `delete channel_`. -/
def assign (l : Life α) (base : Nat) (localAddr peer : α) : Life α :=
  { l with
    base := some base
    w := { l.w with conn := { l.w.conn with state := .handshaking } }
    localAddr, peer }

/-- `delete channel_`. -/
def deleteChannel (w : World) (p : PollRet) : World × Ctl :=
  match w.conn.channel with
  | some ch => w.close ch p
  | none => (w, .user .event)

/-- `channel_ = new Channel(base_, fd, WriteEvent | ReadEvent)`. -/
def createChannel (w : World) (poller : PollerEpoll) (fd : Int) : World :=
  let (w, ch) := World.newChannel { w with poller } fd (writeEvent ||| readEvent)
  { w with conn := { w.conn with channel := some ch } }

inductive Event (α : Type)
  | connect
  | attach (base : Nat) (poller : PollerEpoll) (fd : Int) (localAddr peer : α)
  /-- `attach` goes on after `delete channel_`. -/
  | attachEnd
  | onRead
  /-- The users' code leaves this in `input_`. -/
  | useInput (input : Buffer)
  | callbackEnd
  | handleRead (p : PollRet)
  | handleWrite (p : PollRet)
  | read (r : ReadRet)
  /-- `Channel::close` is called for the channel, as `~PollerEpoll` does. -/
  | close (p : PollRet)

inductive Step : Life α → Event α → Life α → Prop
  /-- In any state: the test of `fatalif` is all there is. -/
  | connect {l : Life α} : l.userTurn = true → Step l .connect l
  | attach {l : Life α} {base poller fd localAddr peer p w} : l.userTurn = true →
    deleteChannel (l.assign base localAddr peer).w p = (w, .user .event) →
    Step l (.attach base poller fd localAddr peer)
      { l.assign base localAddr peer with w := createChannel w poller fd }
  | attachCallback {l : Life α} {base poller fd localAddr peer p w after} : l.userTurn = true →
    deleteChannel (l.assign base localAddr peer).w p = (w, .user (.readcb after)) →
    Step l (.attach base poller fd localAddr peer)
      { l.assign base localAddr peer with
        w, calls := .callback after :: .attach poller fd :: l.calls }
  | attachEnd {l : Life α} {poller fd calls} : l.calls = .attach poller fd :: calls →
    Step l .attachEnd { l with w := createChannel l.w poller fd, calls }
  | onRead {l : Life α} : l.userTurn = true → l.w.conn.readcb = false →
    Step l .onRead { l with w := { l.w with conn := { l.w.conn with readcb := true } } }
  | useInput {l : Life α} {input} : l.userTurn = true →
    Step l (.useInput input) { l with w := { l.w with conn := { l.w.conn with input } } }
  | callbackRet {l : Life α} {calls} : l.calls = .callback .ret :: calls →
    Step l .callbackEnd { l with calls }
  | callbackCleanup {l : Life α} {calls} : l.calls = .callback .cleanup :: calls →
    Step l .callbackEnd { l with w := l.w.finishCleanup, calls }
  | handleRead {l : Life α} {ch p w ctl} : l.calls = [] → l.w.conn.channel = some ch →
    l.w.handleRead ch p = (w, ctl) → Step l (.handleRead p) { l with w, calls := ctl.calls }
  | handleWrite {l : Life α} {ch p w ctl} : l.calls = [] → l.w.conn.channel = some ch →
    l.w.handleWrite ch p = (w, ctl) → Step l (.handleWrite p) { l with w, calls := ctl.calls }
  | read {l : Life α} {calls ch r w ctl} : l.calls = .reading :: calls →
    l.w.conn.channel = some ch → l.w.readTurn ch r = (w, ctl) →
    Step l (.read r) { l with w, calls := ctl.calls ++ calls }
  | close {l : Life α} {ch p w ctl} : l.calls = [] → l.w.conn.channel = some ch →
    l.w.close ch p = (w, ctl) → Step l (.close p) { l with w, calls := ctl.calls }

end Life

end NetLibrary.TcpConn
