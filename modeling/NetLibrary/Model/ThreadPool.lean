import NetLibrary.Model.EventLoop

/-!
# The thread pool

`ThreadPool` of `thread.h` and `thread.cc`. A worker tests `m_exit`, waits for a task, pops it and calls
it in separate steps. The code that uses the pool is run by the other threads, and by the workers while
they are in a task. `start` is called once, and a worker's thread runs from some moment after that on.
-/

namespace NetLibrary.ThreadPool
open Threads

variable {τ : Type}

/-- Where a thread is, apart from the steps inside of its call of the queue. -/
inductive Code (τ : Type)
  /-- Not a worker. -/
  | caller
  | unstarted
  /-- Before the test of `m_tasks.exited()`. -/
  | test
  /-- In `m_tasks.pop_wait(&task)`. -/
  | pop
  | popped (task : τ)
  | running (task : τ)
  | finished
  deriving DecidableEq, Repr

/-- The thread is in code that may use the pool. -/
def Code.user : Code τ → Bool
  | .caller | .running _ => true
  | .unstarted | .test | .pop | .popped _ | .finished => false

/-- What a worker does after `pop_wait`: it calls the task or goes back to the test. -/
def Code.next : Option τ → Code τ
  | some task => .popped task
  | none => .test

/-- A pool and the threads that use it: its queue, and where each thread is in its call of the queue
and in its own code. -/
structure Sys (τ : Type) where
  tasks : SafeQueue τ
  pcs : List SafeQueue.Pc
  codes : List (Code τ)
  deriving DecidableEq, Repr

/-- A step in the queue, or one of a worker outside of it. `run` and `ran` are the call of a task and
its return. -/
inductive Event (τ : Type)
  | queue (e : SafeQueue.Event τ)
  | run (task : τ)
  | ran (task : τ)
  | worker

inductive Step : Sys τ → Event τ → Sys τ → Prop
  | start {i} : At codes i .unstarted → Step ⟨q, pcs, codes⟩ .worker ⟨q, pcs, codes.set i .test⟩
  | testExited {i} : At codes i .test → q.exit = true →
    Step ⟨q, pcs, codes⟩ .worker ⟨q, pcs, codes.set i .finished⟩
  | testOpen {i} : At codes i .test → q.exit = false →
    Step ⟨q, pcs, codes⟩ .worker ⟨q, pcs, codes.set i .pop⟩
  | popNow {i} : At codes i .pop → At pcs i .idle → q.waitReady SafeQueue.waitInfinite = none →
    q.popFront = (r, q') → Step ⟨q, pcs, codes⟩ (.queue (.pop r)) ⟨q', pcs, codes.set i (.next r)⟩
  | block {i} : At codes i .pop → At pcs i .idle → q.waitReady SafeQueue.waitInfinite = some timed →
    Step ⟨q, pcs, codes⟩ (.queue .internal) ⟨q, pcs.set i (.blocked timed), codes⟩
  | unblock {i} : At codes i .pop → At pcs i (.blocked timed) →
    Step ⟨q, pcs, codes⟩ (.queue .internal) ⟨q, pcs.set i (.woken timed false), codes⟩
  | blockAgain {i} : At codes i .pop → At pcs i (.woken timed notified) →
    q.waitsAgain timed timeout = true →
    Step ⟨q, pcs, codes⟩ (.queue .internal) ⟨q, pcs.set i (.blocked timed), codes⟩
  | popWoken {i} : At codes i .pop → At pcs i (.woken timed notified) →
    q.waitsAgain timed timeout = false → q.popFront = (r, q') →
    Step ⟨q, pcs, codes⟩ (.queue (.pop r)) ⟨q', pcs.set i .idle, codes.set i (.next r)⟩
  | run {i} : At codes i (.popped task) →
    Step ⟨q, pcs, codes⟩ (.run task) ⟨q, pcs, codes.set i (.running task)⟩
  /-- A task returns when it is in no call of the pool. -/
  | ran {i} : At codes i (.running task) → At pcs i .idle →
    Step ⟨q, pcs, codes⟩ (.ran task) ⟨q, pcs, codes.set i .test⟩
  | addTask {i} : At codes i code → code.user = true → At pcs i .idle → q.push task = (q', true) →
    SafeQueue.NotifyOne pcs pcs' →
    Step ⟨q, pcs, codes⟩ (.queue (.push task true)) ⟨q', pcs', codes⟩
  | addTaskFail {i} : At codes i code → code.user = true → At pcs i .idle →
    q.push task = (q', false) →
    Step ⟨q, pcs, codes⟩ (.queue (.push task false)) ⟨q', pcs, codes⟩
  | taskSize {i} : At codes i code → code.user = true → At pcs i .idle →
    Step ⟨q, pcs, codes⟩ (.queue (.size q.size)) ⟨q, pcs, codes⟩
  | exitStore {i} : At codes i code → code.user = true → At pcs i .idle →
    Step ⟨q, pcs, codes⟩ (.queue .exitStore) ⟨{ q with exit := true }, pcs.set i .exiting, codes⟩
  | exitNotify {i} : At codes i code → code.user = true → At pcs i .exiting →
    Step ⟨q, pcs, codes⟩ (.queue .exitReturn)
      ⟨q, (SafeQueue.notifyAll pcs).set i .idle, codes⟩

/-- `ThreadPool(threads, taskCapacity)` and `callers` threads that know it. -/
def Sys.init (τ : Type) (threads : Nat) (taskCapacity : Int) (callers : Nat) : Sys τ where
  tasks := { capacity := EventLoop.capacity taskCapacity }
  pcs := .replicate (threads + callers) .idle
  codes := .replicate threads .unstarted ++ .replicate callers .caller

end NetLibrary.ThreadPool
