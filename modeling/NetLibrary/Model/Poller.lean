import Mathlib.Data.Finset.Erase
import Mathlib.Data.Finset.Insert

/-!
# Channels and the epoll poller

`Channel` of `channel.h` and `channel.cc`, and `PollerEpoll` of `poller.h` and `poller.cc`. A pointer
to a channel is the number that the channel drew in its constructor. `interest` is the kernel's side
of the poller: what `epoll_ctl` has registered. Closing a descriptor takes it out of there.
-/

namespace NetLibrary

/-- `POLLIN`. -/
def readEvent : BitVec 16 := 0x1

/-- `POLLOUT`. -/
def writeEvent : BitVec 16 := 0x4

def epollErr : BitVec 32 := 0x8

def epollHup : BitVec 32 := 0x10

structure Channel where
  id : Nat
  fd : Int
  events : BitVec 16
  deriving DecidableEq, Repr

namespace Channel

def enableRead (ch : Channel) (enable : Bool) : Channel :=
  { ch with events := if enable then ch.events ||| readEvent else ch.events &&& ~~~readEvent }

def enableWrite (ch : Channel) (enable : Bool) : Channel :=
  { ch with events := if enable then ch.events ||| writeEvent else ch.events &&& ~~~writeEvent }

def enableReadWrite (ch : Channel) (readEnable writeEnable : Bool) : Channel :=
  (ch.enableRead readEnable).enableWrite writeEnable

def readEnable (ch : Channel) : Bool := ch.events &&& readEvent != 0

def writeEnable (ch : Channel) : Bool := ch.events &&& writeEvent != 0

end Channel

/-- A registration in the kernel: a descriptor, `data.ptr` and the events of interest. -/
structure Interest where
  fd : Int
  ptr : Nat
  events : BitVec 16
  deriving DecidableEq, Repr

/-- An `epoll_event` as `epoll_wait` returns it. -/
structure Active where
  ptr : Option Nat
  events : BitVec 32
  deriving DecidableEq, Repr

structure PollerEpoll where
  liveChannels : Finset Nat := ∅
  /-- The next entry of `activeEvents` is the one before this index. -/
  lastActive : Int := -1
  activeEvents : List Active := []
  interest : List Interest := []
  deriving DecidableEq

namespace PollerEpoll

def addChannel (p : PollerEpoll) (ch : Channel) : PollerEpoll :=
  { p with
    interest := ⟨ch.fd, ch.id, ch.events⟩ :: p.interest
    liveChannels := insert ch.id p.liveChannels }

/-- The loop of `removeChannel`, down from the index `i`. -/
def clearActive (id : Nat) (evs : List Active) : Nat → List Active
  | 0 => if (evs[0]?.bind Active.ptr) = some id then evs.modify 0 ({ · with ptr := none }) else evs
  | i + 1 =>
    if (evs[i + 1]?.bind Active.ptr) = some id then evs.modify (i + 1) ({ · with ptr := none })
    else clearActive id evs i

def removeChannel (p : PollerEpoll) (ch : Channel) : PollerEpoll :=
  { p with
    liveChannels := p.liveChannels.erase ch.id
    activeEvents :=
      if 0 ≤ p.lastActive then clearActive ch.id p.activeEvents p.lastActive.toNat
      else p.activeEvents }

def updateChannel (p : PollerEpoll) (ch : Channel) : PollerEpoll :=
  { p with interest := p.interest.map fun i => if i.fd = ch.fd then ⟨ch.fd, ch.id, ch.events⟩ else i }

/-- `::close(fd)`, in the kernel. -/
def closeFd (p : PollerEpoll) (fd : Int) : PollerEpoll :=
  { p with interest := p.interest.filter (·.fd ≠ fd) }

/-- What `epoll_wait` may return: each registered channel at most once, with events of interest,
errors and hang-ups. -/
structure Ready (p : PollerEpoll) (evs : List Active) : Prop where
  nodup : (evs.map Active.ptr).Nodup
  registered : ∀ e ∈ evs, ∃ i ∈ p.interest, e.ptr = some i.ptr ∧
    e.events &&& ~~~(i.events.zeroExtend 32 ||| epollErr ||| epollHup) = 0

/-- `loop_once` up to its loop. -/
def wait (p : PollerEpoll) (evs : List Active) : PollerEpoll :=
  { p with activeEvents := evs, lastActive := evs.length }

/-- The test of the loop in `loop_once`, with the entry for the iteration that follows. -/
def next (p : PollerEpoll) : PollerEpoll × Option Active :=
  let i := p.lastActive - 1
  ({ p with lastActive := i }, if 0 ≤ i then p.activeEvents[i.toNat]? else none)

end PollerEpoll

/-- `loop_once` calls `handleRead` for these events. -/
def isRead (events : BitVec 32) : Bool :=
  events &&& (epollErr ||| readEvent.zeroExtend 32) != 0

/-- For these it calls `handleWrite`, if not `handleRead`. -/
def isWrite (events : BitVec 32) : Bool := events &&& writeEvent.zeroExtend 32 != 0

end NetLibrary
