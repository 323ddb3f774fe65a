import NetLibrary.Model.Timer

/-!
# The clock and the wait of `loop_once`

`loop_once` passes `min(waitUs, m_nextTimeout)` to the poller and then calls `handleTimeout`. Here all
calls sample one clock, which moves on at any time. Handlers and tasks may call `loop_once` as well, so
the calls in progress are a stack.
-/

namespace NetLibrary.EventBase

/-- The time of the first entry of `m_timers`. -/
def nearest (b : EventBase τ) : Option Int := b.begin.map fun e => e.1.first

/-- Where a call of `loop_once` is: in the poller, which runs the channel handlers, at the test of the
loop in `handleTimeout`, or in a task. -/
inductive Frame
  | polling
  | testing (now : Int)
  | inTask (now : Int)
  deriving DecidableEq, Repr

structure Loop (τ : Type) where
  base : EventBase τ := {}
  clock : Int
  /-- The calls of `loop_once` in progress, the innermost first. -/
  frames : List Frame := []
  /-- Not in the source: the clock and the first deadline at the last `refreshNearest`. -/
  refreshed : Option (Int × Int) := none

namespace Loop

variable {τ : Type}

/-- Users' code is running. -/
def userTurn (l : Loop τ) : Bool :=
  match l.frames with
  | [] | .polling :: _ | .inTask _ :: _ => true
  | .testing _ :: _ => false

/-- `base` becomes `b`, by a call that ends with `refreshNearest`. -/
def refresh (l : Loop τ) (b : EventBase τ) : Loop τ :=
  { l with base := b, refreshed := b.nearest.map fun first => (l.clock, first) }

inductive Event (τ : Type)
  | tick (d : Nat)
  | runAt (waitUs : Int) (task : τ) (interval : Int) (id : TimerId)
  /-- A call of `runAt` after `exit`. -/
  | runAtExited (waitUs : Int) (task : τ) (interval : Int) (id : TimerId)
  | cancel (id : TimerId) (result : Bool)
  | exit
  /-- `loop_once(waitUs)` calls the poller with `wait`. -/
  | poll (waitUs wait : Int)
  | handleTimeout
  | start (id : TimerId) (task : τ)
  | taskEnd
  | timeoutHandled
  /-- `loop` clears both maps before its last `loop_once`. -/
  | clear
  deriving DecidableEq, Repr

inductive Step : Loop τ → Event τ → Loop τ → Prop
  | tick {l : Loop τ} {d} : Step l (.tick d) { l with clock := l.clock + d }
  | runAt {l : Loop τ} {waitUs task interval b id} : l.userTurn = true → l.base.exit = false →
    l.base.runAt l.clock waitUs task interval = (b, id) →
    Step l (.runAt waitUs task interval id) (l.refresh b)
  | runAtExited {l : Loop τ} {waitUs task interval b id} : l.userTurn = true → l.base.exit = true →
    l.base.runAt l.clock waitUs task interval = (b, id) →
    Step l (.runAtExited waitUs task interval id) { l with base := b }
  | cancel {l : Loop τ} {b id result} : l.userTurn = true → l.base.cancel id = some (b, result) →
    Step l (.cancel id result) { l with base := b }
  | exit {l : Loop τ} : Step l .exit { l with base := { l.base with exit := true } }
  | poll {l : Loop τ} {waitUs} : l.userTurn = true →
    Step l (.poll waitUs (min waitUs l.base.nextTimeout)) { l with frames := .polling :: l.frames }
  | handleTimeout {l : Loop τ} {frames} : l.frames = .polling :: frames →
    Step l .handleTimeout { l with frames := .testing l.clock :: frames }
  /-- The task of a one-shot timer starts. -/
  | start {l : Loop τ} {now frames k u b id task} : l.frames = .testing now :: frames →
    l.base.due now = some (k, .user u) → l.base.expire l.clock k (.user u) = some (b, id, task) →
    Step l (.start id task) { l with base := b, frames := .inTask now :: frames }
  /-- `repeatableTimeout` registers the next expiry and then starts the task. -/
  | startRepeatable {l : Loop τ} {now frames k p b id task} : l.frames = .testing now :: frames →
    l.base.due now = some (k, .repeatable p) →
    l.base.expire l.clock k (.repeatable p) = some (b, id, task) →
    Step l (.start id task) ({ l with frames := .inTask now :: frames }.refresh b)
  | taskEnd {l : Loop τ} {now frames} : l.frames = .inTask now :: frames →
    Step l .taskEnd { l with frames := .testing now :: frames }
  | timeoutHandled {l : Loop τ} {now frames} : l.frames = .testing now :: frames →
    l.base.due now = none →
    Step l .timeoutHandled ({ l with frames := frames }.refresh (l.base.refreshNearest l.clock))
  | clear {l : Loop τ} : l.userTurn = true → l.base.exit = true →
    Step l .clear { l with base := { l.base with timers := ∅, timerRepeats := ∅ } }

end Loop

end NetLibrary.EventBase
