import NetLibrary.Model.SafeQueue

/-!
# The event loop and the threads that post tasks to it

`loop`, `loop_once`, `safeCall`, `exit` and `wakeup` of `eventbase.cc`, with the read handler of the
wake pipe that `EventBase::EventBase` installs. Thread 0 is the loop thread. The users' code that it
runs, in channel handlers, tasks and timers, calls these functions as every other thread does. A call
is its first section, the locked push or the store to `m_exit`, and then the write of a byte into the
pipe, which waits as long as the pipe is full.

All bytes in the pipe are alike, so the pipe is the number of them. Its read end is not descriptor 0,
and a `read` of a pipe that holds bytes does not wait, so it is not interrupted.
-/

namespace NetLibrary.EventLoop
open Threads

/-- The conversion of `taskCapacity`, an `int`, to `size_t`. -/
def capacity (taskCapacity : Int) : Nat := (BitVec.ofInt 64 taskCapacity).toNat

/-- What a thread has called and still has to write a byte for. -/
inductive Call (τ : Type)
  | none
  | safeCall (v : τ) (accepted : Bool)
  | exit
  | wakeup
  deriving DecidableEq, Repr

/-- Where the loop thread is. `last` is for the `loop_once(0)` at the end of `loop`. -/
inductive Pc (τ : Type)
  | before
  /-- Before a test of `m_exit` in `loop`. -/
  | test
  | poll (last : Bool)
  /-- In the loop of `PollerEpoll::loop_once`. `wake` says whether the wake pipe is still to come. -/
  | dispatch (last wake : Bool)
  /-- Before a `pop_wait` in the handler of the wake pipe. -/
  | drain (last : Bool)
  | task (last : Bool) (v : τ)
  | timers (last : Bool)
  | returned
  deriving DecidableEq, Repr

/-- The loop thread runs users' code. -/
def Pc.userTurn : Pc τ → Bool
  | .before | .dispatch _ _ | .task _ _ | .timers _ | .returned => true
  | .test | .poll _ | .drain _ => false

structure Sys (τ : Type) where
  tasks : SafeQueue τ
  /-- The unread bytes in the wake pipe. -/
  pipe : Nat := 0
  exit : Bool := false
  pc : Pc τ := .before
  /-- The calls that the threads are in. -/
  calls : List (Call τ)
  deriving DecidableEq, Repr

/-- A new `EventBase` and `n` threads beside the loop thread. -/
def Sys.init (τ : Type) (taskCapacity : Int) (n : Nat) : Sys τ where
  tasks := { capacity := capacity taskCapacity }
  calls := .replicate (n + 1) .none

inductive Event (τ : Type)
  /-- The locked section of `push` in a `safeCall` of thread `i`. -/
  | push (i : Nat) (v : τ) (accepted : Bool)
  /-- The store to `m_exit` in an `exit` of thread `i`. -/
  | store (i : Nat)
  /-- A call of `wakeup` by users. -/
  | wakeup (i : Nat)
  /-- Thread `i` writes its byte and returns from its call. -/
  | write (i : Nat)
  | loop
  | test
  | poll (wake : Bool)
  | read
  | pop (r : Option τ)
  | taskEnd (v : τ)
  | dispatchEnd
  | timersEnd
  deriving DecidableEq, Repr

/-- Thread `i` is in users' code. -/
def Sys.userTurn (s : Sys τ) (i : Nat) : Prop :=
  At s.calls i .none ∧ (i = 0 → s.pc.userTurn = true)

/-- A pipe of `P` bytes. -/
inductive Step (P : Nat) : Sys τ → Event τ → Sys τ → Prop
  | push {s : Sys τ} {i v accepted tasks} : s.userTurn i → s.tasks.push v = (tasks, accepted) →
    Step P s (.push i v accepted)
      { s with tasks, calls := s.calls.set i (.safeCall v accepted) }
  | store {s : Sys τ} {i} : s.userTurn i →
    Step P s (.store i) { s with exit := true, calls := s.calls.set i .exit }
  | wakeup {s : Sys τ} {i} : s.userTurn i →
    Step P s (.wakeup i) { s with calls := s.calls.set i .wakeup }
  | write {s : Sys τ} {i c} : At s.calls i c → c ≠ .none → s.pipe < P →
    Step P s (.write i) { s with pipe := s.pipe + 1, calls := s.calls.set i .none }
  | loop {s : Sys τ} : At s.calls 0 .none → s.pc = .before → Step P s .loop { s with pc := .test }
  /-- It goes on with `loop_once(1000)`, or clears the timers and goes on with `loop_once(0)`. -/
  | test {s : Sys τ} : s.pc = .test → Step P s .test { s with pc := .poll s.exit }
  /-- `epoll_wait` may report the wake pipe while it holds bytes. -/
  | poll {s : Sys τ} {last wake} : s.pc = .poll last → (wake = true → 0 < s.pipe) →
    Step P s (.poll wake) { s with pc := .dispatch last wake }
  /-- With no byte to read the handler only logs. -/
  | read {s : Sys τ} {last} : At s.calls 0 .none → s.pc = .dispatch last true →
    Step P s .read { s with
      pipe := s.pipe - min s.pipe 1024
      pc := if s.pipe = 0 then .dispatch last false else .drain last }
  | pop {s : Sys τ} {last v tasks} : s.pc = .drain last → s.tasks.popFront = (some v, tasks) →
    Step P s (.pop (some v)) { s with tasks, pc := .task last v }
  | popNone {s : Sys τ} {last tasks} : s.pc = .drain last → s.tasks.popFront = (none, tasks) →
    Step P s (.pop none) { s with tasks, pc := .dispatch last false }
  | taskEnd {s : Sys τ} {last v} : At s.calls 0 .none → s.pc = .task last v →
    Step P s (.taskEnd v) { s with pc := .drain last }
  | dispatchEnd {s : Sys τ} {last} : At s.calls 0 .none → s.pc = .dispatch last false →
    Step P s .dispatchEnd { s with pc := .timers last }
  | timersEnd {s : Sys τ} {last} : At s.calls 0 .none → s.pc = .timers last →
    Step P s .timersEnd { s with pc := if last then .returned else .test }

/-! ## One wake-up

The handler of the wake pipe as a function, for a pipe that is never full and other threads that do
nothing in the meantime.
-/

namespace Sys

def safeCall (s : Sys τ) (v : τ) : Sys τ :=
  { s with tasks := (s.tasks.push v).1, pipe := s.pipe + 1 }

/-- `while (m_tasks.pop_wait(&task, 0)) task();`, with the tasks that it has executed. The `i`-th
execution calls `safeCall` with `posts i`. -/
def drain (posts : Nat → List τ) : Nat → Nat → Sys τ → Option (List τ × Sys τ)
  | 0, _, _ => none
  | fuel + 1, i, s =>
    match s.tasks.popFront with
    | (none, tasks) => some ([], { s with tasks })
    | (some v, tasks) =>
      (drain posts fuel (i + 1) ((posts i).foldl safeCall { s with tasks })).map fun r =>
        (v :: r.1, r.2)

def wakeupHandler (posts : Nat → List τ) (fuel : Nat) (s : Sys τ) : Option (List τ × Sys τ) :=
  if s.pipe = 0 then some ([], s)
  else drain posts fuel 0 { s with pipe := s.pipe - min s.pipe 1024 }

end Sys

end NetLibrary.EventLoop
