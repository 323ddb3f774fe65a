import NetLibrary.Model.Poller

/-!
# One call of `PollerEpoll::loop_once`

The loop over the events that `epoll_wait` has returned. What a handler does to the poller is what its
calls of `addChannel`, `updateChannel`, `removeChannel` and `::close` do, for any channels. A handler
does not call `loop_once`.
-/

namespace NetLibrary.PollerEpoll

inductive Handler
  | read
  | write
  deriving DecidableEq, Repr

/-- Which handler `loop_once` calls, if any. -/
def handler (events : BitVec 32) : Option Handler :=
  if isRead events then some .read else if isWrite events then some .write else none

namespace Dispatch

inductive Phase
  /-- At the test of the loop. -/
  | test
  /-- A handler is running. -/
  | handler
  | returned
  deriving DecidableEq, Repr

/-- The poller, and where its `loop_once` is. -/
structure State where
  poller : PollerEpoll
  phase : Phase

inductive Event
  /-- `handleRead` or `handleWrite` of a channel is called. -/
  | call (id : Nat) (h : Handler)
  /-- The entry has been cleared. -/
  | skip
  /-- `fatal("unknow events")`, which only logs. -/
  | unknown (id : Nat)
  | addChannel (ch : Channel)
  | updateChannel (ch : Channel)
  | removeChannel (ch : Channel)
  | closeFd (fd : Int)
  /-- The handler returns. -/
  | ret
  | returned
  deriving DecidableEq, Repr

inductive Step : State → Event → State → Prop
  | call {p p' e id h} : next p = (p', some e) → e.ptr = some id → handler e.events = some h →
    Step ⟨p, .test⟩ (.call id h) ⟨p', .handler⟩
  | skip {p p' e} : next p = (p', some e) → e.ptr = none → Step ⟨p, .test⟩ .skip ⟨p', .test⟩
  | unknown {p p' e id} : next p = (p', some e) → e.ptr = some id → handler e.events = none →
    Step ⟨p, .test⟩ (.unknown id) ⟨p', .test⟩
  | addChannel {p ch} : Step ⟨p, .handler⟩ (.addChannel ch) ⟨p.addChannel ch, .handler⟩
  | updateChannel {p ch} : Step ⟨p, .handler⟩ (.updateChannel ch) ⟨p.updateChannel ch, .handler⟩
  | removeChannel {p ch} : Step ⟨p, .handler⟩ (.removeChannel ch) ⟨p.removeChannel ch, .handler⟩
  | closeFd {p fd} : Step ⟨p, .handler⟩ (.closeFd fd) ⟨p.closeFd fd, .handler⟩
  | ret {p} : Step ⟨p, .handler⟩ .ret ⟨p, .test⟩
  | returned {p p'} : next p = (p', none) → Step ⟨p, .test⟩ .returned ⟨p', .returned⟩

end Dispatch

end NetLibrary.PollerEpoll
