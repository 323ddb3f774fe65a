import Mathlib.Logic.Function.Basic
import NetLibrary.Model.Poller

/-!
# The destruction of the poller

`~PollerEpoll` closes the first of `m_liveChannels` until there is none, `Channel::close` calls the
read handler of its channel, and `~Channel` calls `close`. A handler may close and delete channels, its
own among them, so these calls nest. It creates no channels, and each of its calls comes to an end.

`m_liveChannels` is ordered by addresses, which are unknown, so any of them may be the first.
-/

namespace NetLibrary.Shutdown

/-- A call in progress. -/
inductive Frame
  /-- A read handler, which still closes or deletes up to `n` channels. -/
  | handler (n : Nat)
  /-- `Channel::close`, at its test of `m_fd`. -/
  | close (id : Nat)
  /-- `~Channel` after its `close`. -/
  | delete (id : Nat)
  deriving DecidableEq, Repr

structure State where
  poller : PollerEpoll
  /-- The `id` in `Channel::Channel`. -/
  id : Nat := 0
  /-- The channels that exist. -/
  channels : Nat → Option Channel := fun _ => none
  /-- The innermost call is the first. With none, `~PollerEpoll` is at the test of its loop. -/
  frames : List Frame := []

/-- `Channel::Channel`. -/
def State.construct (s : State) (fd : Int) (events : BitVec 16) : State :=
  let ch : Channel := { id := s.id + 1, fd, events }
  { s with
    poller := s.poller.addChannel ch
    id := ch.id
    channels := Function.update s.channels ch.id (some ch) }

/-- Channels with these descriptors and events, added to a poller that has no live ones. -/
def init (p : PollerEpoll) (cs : List (Int × BitVec 16)) : State :=
  cs.foldl (fun s c => s.construct c.1 c.2) { poller := { p with liveChannels := ∅ } }

inductive Event
  /-- `removeChannel` of the channel and `::close` of its descriptor. -/
  | close (id : Nat) (fd : Int)
  | other
  deriving DecidableEq, Repr

inductive Step : State → Event → State → Prop
  | loop {s : State} {id} : s.frames = [] → id ∈ s.poller.liveChannels →
    Step s .other { s with frames := [.close id] }
  | close {s : State} {id frames ch n} : s.frames = .close id :: frames →
    s.channels id = some ch → 0 < ch.fd →
    Step s (.close ch.id ch.fd) { s with
      poller := (s.poller.removeChannel ch).closeFd ch.fd
      channels := Function.update s.channels id (some { ch with fd := -1 })
      frames := .handler n :: frames }
  | closed {s : State} {id frames ch} : s.frames = .close id :: frames →
    s.channels id = some ch → ch.fd ≤ 0 → Step s .other { s with frames }
  /-- A handler closes a channel that exists. -/
  | callClose {s : State} {n frames id ch} : s.frames = .handler (n + 1) :: frames →
    s.channels id = some ch → Step s .other { s with frames := .close id :: .handler n :: frames }
  /-- A handler deletes a channel that exists and is not being deleted. -/
  | callDelete {s : State} {n frames id ch} : s.frames = .handler (n + 1) :: frames →
    s.channels id = some ch → .delete id ∉ s.frames →
    Step s .other { s with frames := .close id :: .delete id :: .handler n :: frames }
  | ret {s : State} {n frames} : s.frames = .handler n :: frames → Step s .other { s with frames }
  | deleted {s : State} {id frames} : s.frames = .delete id :: frames →
    Step s .other { s with channels := Function.update s.channels id none, frames }

end NetLibrary.Shutdown
