import NetLibrary.Theory.Threads

/-!
# The blocking queue and the threads that use it

`SafeQueue` of `thread.h` and `thread.cc`. The functions of `SafeQueue` are what the code computes
while it holds the mutex. `Sys` is a queue with the threads that call it, and `Step` one step of one
thread: a section under the mutex, which runs as a whole, or the store to `m_exit`, which `exit`
makes before it locks. A thread in `m_ready.wait` holds no lock. It leaves the wait set when it is
notified or, at any moment, spuriously or by a timeout, and then needs the mutex again.
-/

namespace NetLibrary

structure SafeQueue (α : Type) where
  items : List α := []
  capacity : Nat := 0
  exit : Bool := false
  deriving DecidableEq, Repr

namespace SafeQueue
open Threads

variable {α : Type}

/-- `numeric_limits<int>::max()`. -/
def waitInfinite : Int := 2147483647

/-- `push`, with its result; an accepted item also makes it call `notify_one`. -/
def push (q : SafeQueue α) (v : α) : SafeQueue α × Bool :=
  if q.exit || (q.capacity != 0 && q.capacity ≤ q.items.length) then (q, false)
  else ({ q with items := q.items ++ [v] }, true)

/-- What `wait_ready` does when it is called: it returns (`none`), or it waits, in
`m_ready.wait_until` if the flag is set and in `m_ready.wait` with a predicate if not. -/
def waitReady (q : SafeQueue α) (waitMs : Int) : Option Bool :=
  if q.exit || !q.items.isEmpty then none
  else if waitMs = waitInfinite then some false
  else if 0 < waitMs then some true
  else none

/-- Whether a waiting thread that has the mutex again goes back to wait. `timeout` is the result of
`wait_until`; `wait` evaluates its predicate. -/
def waitsAgain (q : SafeQueue α) (timed timeout : Bool) : Bool :=
  if timed then timeout && q.items.isEmpty && !q.exit
  else !(q.exit || !q.items.isEmpty)

/-- Both `pop_wait`s after `wait_ready`. Without an item one returns `T()` and the other `false`. -/
def popFront (q : SafeQueue α) : Option α × SafeQueue α :=
  match q.items with
  | [] => (none, q)
  | v :: rest => (some v, { q with items := rest })

def size (q : SafeQueue α) : Nat := q.items.length

/-- What a thread in `m_ready.wait_until`, or in `m_ready.wait`, gets: the result of `wait_until`, and
the queue as it is when the thread has the mutex again. -/
structure Outcome (α : Type) where
  timeout : Bool
  queue : SafeQueue α
  deriving DecidableEq, Repr

/-- How many outcomes the loop of `wait_ready` takes, `none` if it waits for another one. -/
def waitLoop (timed : Bool) : List (Outcome α) → Option Nat
  | [] => none
  | o :: os => if o.queue.waitsAgain timed o.timeout then (waitLoop timed os).map (· + 1) else some 1

/-- `wait_ready`: how many outcomes it takes. -/
def waitReadyRun (q : SafeQueue α) (waitMs : Int) (os : List (Outcome α)) : Option Nat :=
  match q.waitReady waitMs with
  | none => some 0
  | some timed => waitLoop timed os

/-- `pop_wait`: its result, and `none` if it has not returned. -/
def popWait (q : SafeQueue α) (waitMs : Int) (os : List (Outcome α)) : Option (Option α) :=
  (q.waitReadyRun waitMs os).map fun
    | 0 => q.popFront.1
    | n + 1 => os[n]?.bind fun o => o.queue.popFront.1

/-- Where a thread is in its calls of the queue. -/
inductive Pc
  | idle
  /-- In the wait set of `m_ready`, in `wait_until` if `timed`. -/
  | blocked (timed : Bool)
  /-- Out of the wait set, by a notification or not, and without the mutex. -/
  | woken (timed notified : Bool)
  /-- In `exit`, after the store to `m_exit` and before the section that notifies. -/
  | exiting
  deriving DecidableEq, Repr

def Pc.isBlocked : Pc → Bool
  | .blocked _ => true
  | _ => false

def Pc.isNotified : Pc → Bool
  | .woken _ notified => notified
  | _ => false

/-- `notify_one`: one thread leaves the wait set, if there is one in it. -/
inductive NotifyOne (pcs : List Pc) : List Pc → Prop
  | wake : At pcs i (.blocked timed) → NotifyOne pcs (pcs.set i (.woken timed true))
  | none : (∀ pc ∈ pcs, pc.isBlocked = false) → NotifyOne pcs pcs

/-- `notify_all`. -/
def notifyAll (pcs : List Pc) : List Pc :=
  pcs.map fun
    | .blocked timed => .woken timed true
    | pc => pc

/-- A queue and where each of its threads is. -/
structure Sys (α : Type) where
  queue : SafeQueue α
  pcs : List Pc

/-- What a step does that a caller can see. -/
inductive Event (α : Type)
  | push (v : α) (accepted : Bool)
  | pop (r : Option α)
  | size (n : Nat)
  | exitStore
  | exitReturn
  | internal

inductive Step : Sys α → Event α → Sys α → Prop
  | pushOk : At pcs i .idle → q.push v = (q', true) → NotifyOne pcs pcs' →
    Step ⟨q, pcs⟩ (.push v true) ⟨q', pcs'⟩
  | pushFail : At pcs i .idle → q.push v = (q', false) →
    Step ⟨q, pcs⟩ (.push v false) ⟨q', pcs⟩
  | popNow : At pcs i .idle → q.waitReady waitMs = none → q.popFront = (r, q') →
    Step ⟨q, pcs⟩ (.pop r) ⟨q', pcs⟩
  | block : At pcs i .idle → q.waitReady waitMs = some timed →
    Step ⟨q, pcs⟩ .internal ⟨q, pcs.set i (.blocked timed)⟩
  /-- A spurious wakeup or a timeout. -/
  | unblock : At pcs i (.blocked timed) →
    Step ⟨q, pcs⟩ .internal ⟨q, pcs.set i (.woken timed false)⟩
  | blockAgain : At pcs i (.woken timed notified) → q.waitsAgain timed timeout = true →
    Step ⟨q, pcs⟩ .internal ⟨q, pcs.set i (.blocked timed)⟩
  | popWoken : At pcs i (.woken timed notified) → q.waitsAgain timed timeout = false →
    q.popFront = (r, q') → Step ⟨q, pcs⟩ (.pop r) ⟨q', pcs.set i .idle⟩
  | size : At pcs i .idle → Step ⟨q, pcs⟩ (.size q.size) ⟨q, pcs⟩
  | exitStore : At pcs i .idle →
    Step ⟨q, pcs⟩ .exitStore ⟨{ q with exit := true }, pcs.set i .exiting⟩
  | exitNotify : At pcs i .exiting →
    Step ⟨q, pcs⟩ .exitReturn ⟨q, (notifyAll pcs).set i .idle⟩

/-- A new queue and `n` threads that have not called it yet. -/
def Sys.init (α : Type) (capacity n : Nat) : Sys α := ⟨{ capacity }, .replicate n .idle⟩

end SafeQueue

end NetLibrary
