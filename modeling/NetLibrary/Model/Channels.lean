import Mathlib.Logic.Function.Basic
import NetLibrary.Model.Dispatch

/-!
# Channels over their whole lives

All channels of one poller. Users' code constructs channels, changes their events, closes and deletes
them and calls `loop_once`. So do the handlers that `loop_once` and `Channel::close` call, so these
calls nest. Users call functions of channels that exist, and delete each of them once. `epoll_ctl`, whose failures
the poller only logs, does not fail, and descriptors are closed by `Channel::close` alone.
-/

namespace NetLibrary.Channels
open PollerEpoll

/-- A call in progress. -/
inductive Frame
  /-- The program or a handler. -/
  | user
  /-- `loop_once`, at the test of its loop. -/
  | loop
  /-- `Channel::close`, at its test of `m_fd`. -/
  | close (id : Nat)
  /-- `~Channel` after its `close`. -/
  | delete (id : Nat)
  deriving DecidableEq, Repr

structure State where
  poller : PollerEpoll := {}
  /-- The `id` in `Channel::Channel`. -/
  id : Nat := 0
  /-- The channels that exist. -/
  channels : Nat → Option Channel := fun _ => none
  /-- The innermost call is the first. -/
  frames : List Frame := [.user]

/-- The functions of a channel that change its events. -/
inductive Change
  | enableRead (enable : Bool)
  | enableWrite (enable : Bool)
  | enableReadWrite (readEnable writeEnable : Bool)
  deriving DecidableEq, Repr

def Change.apply (ch : Channel) : Change → Channel
  | .enableRead enable => ch.enableRead enable
  | .enableWrite enable => ch.enableWrite enable
  | .enableReadWrite readEnable writeEnable => ch.enableReadWrite readEnable writeEnable

namespace State

/-- `Channel::Channel`. -/
def construct (s : State) (fd : Int) (events : BitVec 16) : State :=
  let ch : Channel := { id := s.id + 1, fd, events }
  { s with
    poller := s.poller.addChannel ch
    id := ch.id
    channels := Function.update s.channels ch.id (some ch) }

def update (s : State) (ch : Channel) : State :=
  { s with
    poller := s.poller.updateChannel ch
    channels := Function.update s.channels ch.id (some ch) }

/-- `Channel::close` up to its call of `handleRead`. -/
def close (s : State) (ch : Channel) : State :=
  { s with
    poller := (s.poller.removeChannel ch).closeFd ch.fd
    channels := Function.update s.channels ch.id (some { ch with fd := -1 }) }

/-- The kernel gives out descriptors that are not in use. -/
def Fresh (s : State) (fd : Int) : Prop := 0 ≤ fd ∧ ∀ i ∈ s.poller.interest, i.fd ≠ fd

end State

inductive Event
  | construct (fd : Int) (events : BitVec 16)
  | change (id : Nat) (c : Change)
  | callClose (id : Nat)
  | callDelete (id : Nat)
  /-- A call of `loop_once`, and what `epoll_wait` returns: nothing if it fails. -/
  | callLoop (evs : Option (List Active))
  /-- `loop_once` calls a handler. -/
  | dispatch (id : Nat) (h : Handler)
  | skip
  | loopReturned
  /-- The descriptor is closed, and `handleRead` is called. -/
  | close (id : Nat)
  | closed
  | deleted (id : Nat)
  /-- A handler returns. -/
  | ret
  deriving DecidableEq, Repr

inductive Step : State → Event → State → Prop
  | construct {s : State} {frames fd events} : s.frames = .user :: frames → s.Fresh fd →
    Step s (.construct fd events) (s.construct fd events)
  | change {s : State} {frames id ch c} : s.frames = .user :: frames → s.channels id = some ch →
    Step s (.change id c) (s.update (c.apply ch))
  | callClose {s : State} {frames id ch} : s.frames = .user :: frames → s.channels id = some ch →
    Step s (.callClose id) { s with frames := .close id :: s.frames }
  | callDelete {s : State} {frames id ch} : s.frames = .user :: frames → s.channels id = some ch →
    .delete id ∉ s.frames →
    Step s (.callDelete id) { s with frames := .close id :: .delete id :: s.frames }
  | callLoop {s : State} {frames evs} : s.frames = .user :: frames → s.poller.Ready evs →
    Step s (.callLoop (some evs)) { s with poller := s.poller.wait evs, frames := .loop :: s.frames }
  | callLoopFail {s : State} {frames} : s.frames = .user :: frames →
    Step s (.callLoop none)
      { s with poller := { s.poller with lastActive := -1 }, frames := .loop :: s.frames }
  | dispatch {s : State} {frames p e id h} : s.frames = .loop :: frames → s.poller.next = (p, some e) →
    e.ptr = some id → handler e.events = some h →
    Step s (.dispatch id h) { s with poller := p, frames := .user :: s.frames }
  | skip {s : State} {frames p e} : s.frames = .loop :: frames → s.poller.next = (p, some e) →
    e.ptr = none ∨ handler e.events = none → Step s .skip { s with poller := p }
  | loopReturned {s : State} {frames p} : s.frames = .loop :: frames → s.poller.next = (p, none) →
    Step s .loopReturned { s with poller := p, frames }
  | close {s : State} {frames id ch} : s.frames = .close id :: frames → s.channels id = some ch →
    0 < ch.fd → Step s (.close id) { s.close ch with frames := .user :: frames }
  | closed {s : State} {frames id ch} : s.frames = .close id :: frames → s.channels id = some ch →
    ch.fd ≤ 0 → Step s .closed { s with frames }
  | deleted {s : State} {frames id} : s.frames = .delete id :: frames →
    Step s (.deleted id) { s with channels := Function.update s.channels id none, frames }
  | ret {s : State} {f frames} : s.frames = .user :: f :: frames →
    Step s .ret { s with frames := f :: frames }

end NetLibrary.Channels
