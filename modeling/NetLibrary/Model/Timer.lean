import Mathlib.Algebra.Order.Ring.Int

/-!
# The timers of an event loop

`runAt`, `cancel`, `repeatableTimeout` and `handleTimeout` of `eventbase.cc`, over the members of
`EventBase` that they use. Times and sequence numbers are exact integers: a signed overflow is
undefined in the source, so the runs here are those without one. `none` stands for the other
undefined behaviour, a dereference of a map node that does not exist.

A repeating timer has a public identifier, its key in `m_timerRepeats`, and an internal one, its
present key in `m_timers`, which every expiry changes. The closure in `m_timers` captures a pointer
to the node of `m_timerRepeats`. Nodes of a `std::map` do not move, so the pointer is the key.
-/

namespace NetLibrary

/-- `pair<int64_t, int64_t>`: a time and a sequence number. -/
structure TimerId where
  first : Int := 0
  second : Int := 0
  deriving DecidableEq, Repr

namespace TimerId

/-- Pairs are ordered by their first component, and by the second where that is the same. -/
instance : Ord TimerId := ⟨compareLex (compareOn first) (compareOn second)⟩

instance : Std.TransOrd TimerId :=
  inferInstanceAs (Std.TransCmp (compareLex (compareOn first) (compareOn second)))

instance : Std.LawfulEqOrd TimerId where
  eq_of_compare {a b} h := by
    cases a
    cases b
    simpa [compare, compareLex, compareOn, Ordering.then_eq_eq, compareOfLessAndEq_eq_eq] using h

theorem compare_eq_lt {a b : TimerId} :
    compare a b = .lt ↔ a.first < b.first ∨ a.first = b.first ∧ a.second < b.second := by
  cases a
  cases b
  simp [compare, compareLex, compareOn, Ordering.then_eq_lt, compareOfLessAndEq_eq_lt,
    compareOfLessAndEq_eq_eq]

end TimerId

/-- The tasks of the users are abstract: what a task does are the steps of `EventBase.Step` between its
start and its end. -/
structure TimerRepeatable (τ : Type) where
  «at» : Int
  interval : Int
  tid : TimerId
  task : τ
  deriving DecidableEq, Repr

/-- A task in `m_timers`: a user's, or the closure `[this, p]{ repeatableTimeout(p); }`. -/
inductive TimerTask (τ : Type)
  | user (task : τ)
  | repeatable (p : TimerId)
  deriving DecidableEq, Repr

structure EventBase (τ : Type) where
  exit : Bool := false
  nextTimeout : Int := 1 <<< 30
  timerNum : Int := 0
  timers : Std.TreeMap TimerId (TimerTask τ) := ∅
  timerRepeats : Std.TreeMap TimerId (TimerRepeatable τ) := ∅

namespace EventBase

variable {τ : Type}

/-- `m_timers.begin()`. -/
def begin (b : EventBase τ) : Option (TimerId × TimerTask τ) := b.timers.toList.head?

/-- `clock` is the result of `util::timeMilli()`. The difference is stored in an `int`. -/
def refreshNearest (b : EventBase τ) (clock : Int) : EventBase τ :=
  match b.begin with
  | none => { b with nextTimeout := 1 <<< 30 }
  | some (t, _) =>
    let d := (t.first - clock).bmod (2 ^ 32)
    { b with nextTimeout := if d < 0 then 0 else d }

def runAt (b : EventBase τ) (clock waitUs : Int) (task : τ) (interval : Int) :
    EventBase τ × TimerId :=
  if b.exit then (b, {})
  else if interval ≠ 0 then
    let tid : TimerId := ⟨-waitUs, b.timerNum + 1⟩
    let p : TimerId := ⟨waitUs, b.timerNum + 2⟩
    let b := { b with
      timerNum := b.timerNum + 2
      timerRepeats := b.timerRepeats.insert tid ⟨waitUs, interval, p, task⟩
      timers := b.timers.insert p (.repeatable tid) }
    (b.refreshNearest clock, tid)
  else
    let tid : TimerId := ⟨waitUs, b.timerNum + 1⟩
    let b := { b with
      timerNum := b.timerNum + 1
      timers := b.timers.insertIfNew tid (.user task) }
    (b.refreshNearest clock, tid)

/-- The branch for repeating timers does not compare the iterator with `end()`. -/
def cancel (b : EventBase τ) (timerid : TimerId) : Option (EventBase τ × Bool) :=
  if timerid.first < 0 then
    match b.timerRepeats[timerid]? with
    | none => none
    | some tr => some ({ b with
        timers := b.timers.erase tr.tid
        timerRepeats := b.timerRepeats.erase timerid }, true)
  else if b.timers.contains timerid then
    some ({ b with timers := b.timers.erase timerid }, true)
  else some (b, false)

/-- Up to the call of `tr->task`, which is returned. -/
def repeatableTimeout (b : EventBase τ) (clock : Int) (p : TimerId) : Option (EventBase τ × τ) :=
  match b.timerRepeats[p]? with
  | none => none
  | some tr =>
    let tid : TimerId := ⟨tr.at + tr.interval, b.timerNum + 1⟩
    let b := { b with
      timerNum := b.timerNum + 1
      timerRepeats := b.timerRepeats.insert p { tr with «at» := tr.at + tr.interval, tid }
      timers := b.timers.insert tid (.repeatable p) }
    some (b.refreshNearest clock, tr.task)

/-- The condition of the loop in `handleTimeout`, with the first timer where it holds. -/
def due (b : EventBase τ) (now : Int) : Option (TimerId × TimerTask τ) :=
  match b.begin with
  | some (k, t) => if compare k ⟨now, 1 <<< 62⟩ = .lt then some (k, t) else none
  | none => none

/-- The call `task()` in that loop, up to the user's task. It returns the identifier under which
`runAt` registered that task. -/
def call (b : EventBase τ) (clock : Int) (k : TimerId) :
    TimerTask τ → Option (EventBase τ × TimerId × τ)
  | .user task => some (b, k, task)
  | .repeatable p => (b.repeatableTimeout clock p).map fun (b, task) => (b, p, task)

/-- The body of that loop, up to the user's task. -/
def expire (b : EventBase τ) (clock : Int) (k : TimerId) (t : TimerTask τ) :
    Option (EventBase τ × TimerId × τ) :=
  call { b with timers := b.timers.erase k } clock k t

/-- A start in `handleTimeout`: the key of the entry that has expired, and the identifier under which
`runAt` registered the task. -/
structure Start (τ : Type) where
  key : TimerId
  id : TimerId
  task : τ
  deriving DecidableEq, Repr

/-- The loop of `handleTimeout` with tasks that do not touch timers, for at most `fuel` tests of its
condition. Every `refreshNearest` in it follows another `++m_timerNum`; `clock` gives the time for each. -/
def timeoutLoop (clock : Int → Int) (now : Int) : Nat → EventBase τ → Option (List (Start τ) × EventBase τ)
  | 0, _ => none
  | fuel + 1, b =>
    match b.due now with
    | none => some ([], b)
    | some (k, t) =>
      match b.expire (clock b.timerNum) k t with
      | none => none
      | some (b, id, task) =>
        (timeoutLoop clock now fuel b).map fun (starts, b) => (⟨k, id, task⟩ :: starts, b)

/-- `handleTimeout` with such tasks: what it starts. `now` is the time that it samples. -/
def handleTimeout (b : EventBase τ) (clock : Int → Int) (now : Int) (fuel : Nat) :
    Option (List (Start τ) × EventBase τ) :=
  (timeoutLoop clock now fuel b).map fun (starts, b) => (starts, b.refreshNearest (clock b.timerNum))

end EventBase

/-! ## The loop thread -/

namespace EventBase

/-- What the loop thread does: nothing of `handleTimeout`, the test of its loop, or a user's task
that this loop called. `now` is the time that `handleTimeout` sampled. -/
inductive Phase
  | idle
  | testing (now : Int)
  | inTask (now : Int)
  deriving DecidableEq, Repr

/-- Users call the timer functions between events and from tasks. -/
def Phase.userTurn : Phase → Bool
  | .testing _ => false
  | _ => true

/-- An event loop and where its thread is. -/
structure Config (τ : Type) where
  base : EventBase τ := {}
  phase : Phase := .idle

inductive Action (τ : Type)
  | runAt (waitUs : Int) (task : τ) (interval : Int) (id : TimerId)
  /-- A call of `runAt` after `exit`. -/
  | runAtExited (waitUs : Int) (task : τ) (interval : Int) (id : TimerId)
  | cancel (id : TimerId) (result : Bool)
  | exit
  | handleTimeout (now : Int)
  /-- The task that `runAt` registered as `id` starts, from the entry of `m_timers` at the time
  `deadline`, in a `handleTimeout` that sampled `now`. -/
  | start (id : TimerId) (deadline now : Int) (task : τ)
  | taskEnd
  | timeoutHandled
  /-- `loop` clears both maps when it ends. -/
  | loopEnd
  deriving DecidableEq, Repr

variable {τ : Type}

inductive Step : Config τ → Action τ → Config τ → Prop
  | runAt {b b' : EventBase τ} {ph clock waitUs task interval id} :
    ph.userTurn = true → b.exit = false → b.runAt clock waitUs task interval = (b', id) →
    Step ⟨b, ph⟩ (.runAt waitUs task interval id) ⟨b', ph⟩
  | runAtExited {b b' : EventBase τ} {ph clock waitUs task interval id} :
    ph.userTurn = true → b.exit = true → b.runAt clock waitUs task interval = (b', id) →
    Step ⟨b, ph⟩ (.runAtExited waitUs task interval id) ⟨b', ph⟩
  | cancel {b b' : EventBase τ} {ph id result} :
    ph.userTurn = true → b.cancel id = some (b', result) →
    Step ⟨b, ph⟩ (.cancel id result) ⟨b', ph⟩
  | exit {b : EventBase τ} {ph} : Step ⟨b, ph⟩ .exit ⟨{ b with exit := true }, ph⟩
  | handleTimeout {b : EventBase τ} {now} :
    Step ⟨b, .idle⟩ (.handleTimeout now) ⟨b, .testing now⟩
  | start {b b' : EventBase τ} {now clock k t id task} :
    b.due now = some (k, t) → b.expire clock k t = some (b', id, task) →
    Step ⟨b, .testing now⟩ (.start id k.first now task) ⟨b', .inTask now⟩
  | taskEnd {b : EventBase τ} {now} : Step ⟨b, .inTask now⟩ .taskEnd ⟨b, .testing now⟩
  | timeoutHandled {b : EventBase τ} {now clock} : b.due now = none →
    Step ⟨b, .testing now⟩ .timeoutHandled ⟨b.refreshNearest clock, .idle⟩
  | loopEnd {b : EventBase τ} : b.exit = true →
    Step ⟨b, .idle⟩ .loopEnd ⟨{ b with timers := ∅, timerRepeats := ∅ }, .idle⟩

/-- `Step` as a function, with one clock sample for all calls; `none` where the action is not
possible. -/
def act [DecidableEq τ] (clock : Int) : Config τ → Action τ → Option (Config τ)
  | ⟨b, ph⟩, .runAt waitUs task interval id =>
    let r := b.runAt clock waitUs task interval
    if ph.userTurn = true ∧ b.exit = false ∧ r.2 = id then some ⟨r.1, ph⟩ else none
  | ⟨b, ph⟩, .runAtExited waitUs task interval id =>
    let r := b.runAt clock waitUs task interval
    if ph.userTurn = true ∧ b.exit = true ∧ r.2 = id then some ⟨r.1, ph⟩ else none
  | ⟨b, ph⟩, .cancel id result =>
    match b.cancel id with
    | some (b', r) => if ph.userTurn = true ∧ r = result then some ⟨b', ph⟩ else none
    | none => none
  | ⟨b, ph⟩, .exit => some ⟨{ b with exit := true }, ph⟩
  | ⟨b, .idle⟩, .handleTimeout now => some ⟨b, .testing now⟩
  | ⟨b, .testing sampled⟩, .start id deadline now task =>
    match b.due now with
    | some (k, t) =>
      match b.expire clock k t with
      | some (b', i, u) =>
        if sampled = now ∧ i = id ∧ k.first = deadline ∧ u = task then some ⟨b', .inTask now⟩
        else none
      | none => none
    | none => none
  | ⟨b, .inTask now⟩, .taskEnd => some ⟨b, .testing now⟩
  | ⟨b, .testing now⟩, .timeoutHandled =>
    if b.due now = none then some ⟨b.refreshNearest clock, .idle⟩ else none
  | ⟨b, .idle⟩, .loopEnd =>
    if b.exit = true then some ⟨{ b with timers := ∅, timerRepeats := ∅ }, .idle⟩ else none
  | _, _ => none

end EventBase

end NetLibrary
