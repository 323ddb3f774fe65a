import NetLibrary.Verify.SafeQueue.Fifo
import NetLibrary.Model.ThreadPool

/-!
# The pool accounts for its tasks

A step of the pool is a step of its queue or leaves the queue alone (`Step.queue`), so what `fifo` says
of the queue holds in every run of the pool. A worker carries a popped task from the pop to the call and
from the call to its return (`popped_perm`, `started_perm`).
-/

namespace NetLibrary.ThreadPool
open LTS Threads

variable {τ : Type} {s t : Sys τ} {e : Event τ} {es : List (Event τ)}

/-! ## The queue -/

def Sys.queue (s : Sys τ) : SafeQueue.Sys τ := ⟨s.tasks, s.pcs⟩

def Event.toQueue : Event τ → Option (SafeQueue.Event τ)
  | .queue e => some e
  | .run _ | .ran _ | .worker => none

theorem Step.queue (h : Step s e t) :
    (∃ e', e.toQueue = some e' ∧ SafeQueue.Step s.queue e' t.queue) ∨
      (e.toQueue = none ∧ t.queue = s.queue) := by
  cases h with
  | start | testExited | testOpen | run | ran => exact .inr ⟨rfl, rfl⟩
  | popNow _ hidle hwait hpop => exact .inl ⟨_, rfl, .popNow hidle hwait hpop⟩
  | block _ hidle hwait => exact .inl ⟨_, rfl, .block hidle hwait⟩
  | unblock _ hblocked => exact .inl ⟨_, rfl, .unblock hblocked⟩
  | blockAgain _ hwoken hagain => exact .inl ⟨_, rfl, .blockAgain hwoken hagain⟩
  | popWoken _ hwoken hagain hpop => exact .inl ⟨_, rfl, .popWoken hwoken hagain hpop⟩
  | addTask _ _ hidle hpush hnotify => exact .inl ⟨_, rfl, .pushOk hidle hpush hnotify⟩
  | addTaskFail _ _ hidle hpush => exact .inl ⟨_, rfl, .pushFail hidle hpush⟩
  | taskSize _ _ hidle => exact .inl ⟨_, rfl, .size hidle⟩
  | exitStore _ _ hidle => exact .inl ⟨_, rfl, .exitStore hidle⟩
  | exitNotify _ _ hexiting => exact .inl ⟨_, rfl, .exitNotify hexiting⟩

theorem run_queue {threads callers : Nat} {taskCapacity : Int}
    (h : Run Step (.init τ threads taskCapacity callers) es s) :
    Run SafeQueue.Step (.init τ (EventLoop.capacity taskCapacity) (threads + callers))
      (es.filterMap Event.toQueue) s.queue :=
  h.project (g := Sys.queue) Step.queue

/-! ## The tasks -/

def Event.accepted : Event τ → Option τ
  | .queue (.push task true) => some task
  | _ => none

def Event.popped : Event τ → Option τ
  | .queue (.pop r) => r
  | _ => none

def Event.started : Event τ → Option τ
  | .run task => some task
  | _ => none

def Event.executed : Event τ → Option τ
  | .ran task => some task
  | _ => none

/-- The tasks for which `addTask` returned true. -/
def accepted (es : List (Event τ)) : List τ := es.filterMap Event.accepted

/-- The tasks that workers called. -/
def started (es : List (Event τ)) : List τ := es.filterMap Event.started

/-- The tasks that have returned. -/
def executed (es : List (Event τ)) : List τ := es.filterMap Event.executed

def Code.popped? : Code τ → Option τ
  | .popped task => some task
  | _ => none

def Code.running? : Code τ → Option τ
  | .running task => some task
  | _ => none

theorem Code.popped?_next (r : Option τ) : (Code.next r).popped? = r := by cases r <;> rfl

theorem Code.running?_next (r : Option τ) : (Code.next r).running? = none := by cases r <;> rfl

theorem accepted_toQueue : SafeQueue.accepted (es.filterMap Event.toQueue) = accepted es := by
  rw [SafeQueue.accepted, List.filterMap_filterMap, accepted]
  congr 1
  funext e
  rcases e with (⟨_, _ | _⟩ | _ | _ | _ | _ | _) | _ | _ | _ <;> rfl

theorem popped_toQueue :
    SafeQueue.popped (es.filterMap Event.toQueue) = es.filterMap Event.popped := by
  rw [SafeQueue.popped, List.filterMap_filterMap]
  congr 1
  funext e
  rcases e with (_ | _ | _ | _ | _ | _) | _ | _ | _ <;> rfl

/-- A worker has the task of its pop until it calls it. -/
theorem Step.popped (h : Step s e t) :
    (e.popped.toList ++ s.codes.filterMap Code.popped?).Perm
      (e.started.toList ++ t.codes.filterMap Code.popped?) := by
  cases h with
  | start hat | testExited hat | testOpen hat | run hat | ran hat => exact hat.filterMap_set rfl rfl
  | popNow hat | popWoken hat => exact hat.filterMap_set (Code.popped?_next _).symm rfl
  | block | unblock | blockAgain | addTask | addTaskFail | taskSize | exitStore | exitNotify =>
    exact .refl _

/-- A worker is in the task that it called until this returns. -/
theorem Step.started (h : Step s e t) :
    (e.started.toList ++ s.codes.filterMap Code.running?).Perm
      (e.executed.toList ++ t.codes.filterMap Code.running?) := by
  cases h with
  | start hat | testExited hat | testOpen hat | run hat | ran hat => exact hat.filterMap_set rfl rfl
  | popNow hat | popWoken hat => exact hat.filterMap_set (Code.running?_next _).symm rfl
  | block | unblock | blockAgain | addTask | addTaskFail | taskSize | exitStore | exitNotify =>
    exact .refl _

theorem filterMap_init {f : Code τ → Option τ} {threads callers : Nat} {taskCapacity : Int}
    (hstart : f .unstarted = none) (hcaller : f .caller = none) :
    (Sys.init τ threads taskCapacity callers).codes.filterMap f = [] := by
  rw [List.filterMap_eq_nil_iff]
  intro code hmem
  rcases List.mem_append.mp hmem with hmem | hmem
  · exact List.eq_of_mem_replicate hmem ▸ hstart
  · exact List.eq_of_mem_replicate hmem ▸ hcaller

section
variable {threads callers : Nat} {taskCapacity : Int}

/-- Every accepted task is in the queue or was popped. -/
theorem accepted_eq (h : Run Step (.init τ threads taskCapacity callers) es s) :
    accepted es = es.filterMap Event.popped ++ s.tasks.items := by
  rw [← accepted_toQueue, ← popped_toQueue]
  exact (SafeQueue.fifo (run_queue h)).1

theorem popped_perm (h : Run Step (.init τ threads taskCapacity callers) es s) :
    (es.filterMap Event.popped).Perm (started es ++ s.codes.filterMap Code.popped?) := by
  have hperm := h.conserved (fun s => s.codes.filterMap Code.popped?) Step.popped
  rwa [filterMap_init rfl rfl, List.append_nil] at hperm

theorem started_perm (h : Run Step (.init τ threads taskCapacity callers) es s) :
    (started es).Perm (executed es ++ s.codes.filterMap Code.running?) := by
  have hperm := h.conserved (fun s => s.codes.filterMap Code.running?) Step.started
  rwa [filterMap_init rfl rfl, List.append_nil] at hperm

/-- The accepted tasks are those that were called, those that a worker has popped and not yet called, and
those in the queue. -/
theorem accepted_perm (h : Run Step (.init τ threads taskCapacity callers) es s) :
    (accepted es).Perm (started es ++ s.codes.filterMap Code.popped? ++ s.tasks.items) := by
  rw [accepted_eq h]
  exact (popped_perm h).append_right _

/-- **The pool accounts for every task.** In every run of any number of workers and other threads, no task
is called, or executed, more often than it was accepted, and once all workers have finished the
accepted tasks are those that were executed and those in the queue. -/
theorem accounts (h : Run Step (.init τ threads taskCapacity callers) es s) :
    (started es).Subperm (accepted es) ∧ (executed es).Subperm (started es) ∧
      ((∀ code ∈ s.codes, code = .caller ∨ code = .finished) →
        (accepted es).Perm (executed es ++ s.tasks.items) ∧
          (executed es).length + s.tasks.items.length = (accepted es).length) := by
  have haccepted := accepted_perm h
  have hstarted := started_perm h
  refine ⟨?_, ?_, fun hfinished => ?_⟩
  · rw [List.append_assoc] at haccepted
    exact (List.sublist_append_left _ _).subperm.trans haccepted.symm.subperm
  · exact (List.sublist_append_left _ _).subperm.trans hstarted.symm.subperm
  · have hnone : ∀ f : Code τ → Option τ, f .caller = none → f .finished = none →
        s.codes.filterMap f = [] := by
      intro f hcaller hdone
      rw [List.filterMap_eq_nil_iff]
      intro code hmem
      rcases hfinished code hmem with rfl | rfl
      · exact hcaller
      · exact hdone
    rw [hnone _ rfl rfl, List.append_nil] at haccepted hstarted
    have hperm := haccepted.trans (hstarted.append_right _)
    refine ⟨hperm, ?_⟩
    rw [hperm.length_eq, List.length_append]

end

/-- The worker waits, runs a task, and finds the pool exited while another task is in the queue. -/
def leftover : List (Event Nat) :=
  [.worker, .worker, .queue .internal, .queue (.push 7 true), .queue (.pop (some 7)),
    .queue (.push 8 true), .queue .exitStore, .run 7, .queue .exitReturn, .ran 7, .worker]

theorem leftover_run : Run Step (.init Nat 1 2 1) leftover
    ⟨⟨[8], 2, true⟩, [.idle, .idle], [.finished, .caller]⟩ := by
  have hpush : (⟨[], 2, false⟩ : SafeQueue Nat).push 7 = (⟨[7], 2, false⟩, true) := rfl
  have hpush' : (⟨[], 2, false⟩ : SafeQueue Nat).push 8 = (⟨[8], 2, false⟩, true) := rfl
  have hready : (⟨[7], 2, false⟩ : SafeQueue Nat).waitsAgain false false = false := rfl
  have h₁ : Run Step (.init Nat 1 2 1) [.worker] ⟨⟨[], 2, false⟩, [.idle, .idle], [.test, .caller]⟩ :=
    .single (.start (i := 0) rfl)
  have h₂ := h₁.snoc (.testOpen (i := 0) rfl rfl)
  have h₃ := h₂.snoc (.block (i := 0) rfl rfl rfl)
  have h₄ := h₃.snoc (.addTask (i := 1) rfl rfl rfl hpush (.wake (i := 0) rfl))
  have h₅ := h₄.snoc (.popWoken (i := 0) rfl rfl hready rfl)
  have h₆ := h₅.snoc (.addTask (i := 1) rfl rfl rfl hpush' (.none (by decide)))
  have h₇ := h₆.snoc (.exitStore (i := 1) rfl rfl rfl)
  have h₈ := h₇.snoc (.run (i := 0) rfl)
  have h₉ := h₈.snoc (.exitNotify (i := 1) rfl rfl rfl)
  have h₁₀ := h₉.snoc (.ran (i := 0) rfl rfl)
  exact h₁₀.snoc (.testExited (i := 0) rfl rfl)

theorem accounts_leftover : (started leftover).Subperm (accepted leftover) ∧
    (executed leftover).Subperm (started leftover) ∧
      (accepted leftover).Perm (executed leftover ++ [8]) ∧
        (executed leftover).length + [8].length = (accepted leftover).length := by
  obtain ⟨hstarted, hexecuted, hfinished⟩ := accounts leftover_run
  exact ⟨hstarted, hexecuted, hfinished (by decide)⟩

end NetLibrary.ThreadPool
