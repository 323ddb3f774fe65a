import NetLibrary.Theory.Fifo
import NetLibrary.Model.SafeQueue

/-!
# The blocking queue is a bounded queue that can be closed

`Step.refines` maps every step of every thread to a step of `Fifo`, whatever the other threads do in
between; the store to `m_exit` is the step that closes the queue. `fifo` reads the history of the
items off that.
-/

namespace NetLibrary.SafeQueue
open LTS Threads

variable {α : Type} {q q' : SafeQueue α} {v : α} {r : Option α} {s s' : Sys α} {e : Event α}
  {es : List (Event α)}

theorem push_true (h : q.push v = (q', true)) :
    q.exit = false ∧ (q.capacity = 0 ∨ q.items.length < q.capacity) ∧
      q' = { q with items := q.items ++ [v] } := by
  unfold push at h
  split at h
  · cases h
  · rename_i hopen
    cases h
    simp only [Bool.or_eq_true, Bool.and_eq_true, bne_iff_ne, ne_eq, decide_eq_true_eq, not_or,
      not_and, Nat.not_le, Bool.not_eq_true] at hopen
    exact ⟨hopen.1, (Nat.eq_zero_or_pos q.capacity).imp_right fun h => hopen.2 (Nat.ne_of_gt h),
      rfl⟩

theorem push_false (h : q.push v = (q', false)) : q' = q := by
  unfold push at h
  split at h <;> cases h
  rfl

theorem popFront_none (h : q.popFront = (none, q')) : q.items = [] ∧ q' = q := by
  unfold popFront at h
  split at h <;> cases h
  exact ⟨‹_›, rfl⟩

theorem popFront_some (h : q.popFront = (some v, q')) :
    q.items = v :: q'.items ∧ q' = { q with items := q'.items } := by
  unfold popFront at h
  split at h <;> cases h
  exact ⟨‹_›, rfl⟩

/-- The queue as its callers see it. -/
def abs (q : SafeQueue α) : Fifo.State α := ⟨q.items, q.exit⟩

def Event.toFifo : Event α → Fifo.Event α
  | .push v ok => .put v ok
  | .pop r => .take r
  | .exitStore => .close
  | .size _ | .exitReturn | .internal => .other

theorem popFront_refines (h : q.popFront = (r, q')) :
    Fifo.Step q.capacity q.abs (.take r) q'.abs ∧ q'.capacity = q.capacity := by
  cases r with
  | none =>
    obtain ⟨-, rfl⟩ := popFront_none h
    exact ⟨.empty, rfl⟩
  | some v =>
    obtain ⟨hitems, hq⟩ := popFront_some h
    rw [hq]
    exact ⟨.take hitems, rfl⟩

/-- Every step of a thread is a step of the bounded queue, and none changes the capacity. -/
theorem Step.refines (h : Step s e s') :
    Fifo.Step s.queue.capacity s.queue.abs e.toFifo s'.queue.abs ∧
      s'.queue.capacity = s.queue.capacity := by
  cases h with
  | pushOk _ hpush _ =>
    obtain ⟨hopen, hroom, rfl⟩ := push_true hpush
    exact ⟨.put hopen hroom, rfl⟩
  | pushFail _ hpush =>
    obtain rfl := push_false hpush
    exact ⟨.full, rfl⟩
  | popNow _ _ hpop | popWoken _ _ hpop => exact popFront_refines hpop
  | exitStore => exact ⟨.close, rfl⟩
  | block | unblock | blockAgain | size | exitNotify => exact ⟨.other, rfl⟩

theorem run_refines {capacity n : Nat} (h : Run Step (Sys.init α capacity n) es s) :
    Run (Fifo.Step capacity) {} (es.map Event.toFifo) s.queue.abs := by
  obtain ⟨a, hrun, rfl, -⟩ := h.simulation_map
    (R := fun s a => a = s.queue.abs ∧ s.queue.capacity = capacity) (a := {}) ⟨rfl, rfl⟩
    (by
      rintro s a e t ⟨rfl, hcap⟩ hstep
      obtain ⟨hfifo, hcap'⟩ := hstep.refines
      exact ⟨_, hcap ▸ hfifo, rfl, hcap'.trans hcap⟩)
  exact hrun

/-- The items whose `push` returned true, in the order in which they were accepted. -/
def accepted (es : List (Event α)) : List α :=
  es.filterMap fun
    | .push v true => some v
    | _ => none

/-- The items that pops returned, in the order of the pops. -/
def popped (es : List (Event α)) : List α :=
  es.filterMap fun
    | .pop r => r
    | _ => none

theorem accepted_toFifo : Fifo.accepted (es.map Event.toFifo) = accepted es := by
  rw [Fifo.accepted, List.filterMap_map, accepted]
  congr 1
  funext e
  rcases e with ⟨v, _ | _⟩ | _ | _ | _ | _ | _ <;> rfl

theorem taken_toFifo : Fifo.taken (es.map Event.toFifo) = popped es := by
  rw [Fifo.taken, List.filterMap_map, popped]
  congr 1
  funext e
  cases e <;> rfl

/-- **The queue conserves and orders its items.** In every interleaving of any number of threads,
the accepted items are the popped ones followed by the queued ones; the queue holds at most
`capacity` items if that is positive; and a `push` that runs its section after the store to
`m_exit` is not accepted. -/
theorem fifo {capacity n : Nat} (h : Run Step (Sys.init α capacity n) es s) :
    accepted es = popped es ++ s.queue.items ∧
      (0 < capacity → s.queue.items.length ≤ capacity) ∧
      ∀ l₁ v l₂, es = l₁ ++ .push v true :: l₂ → .exitStore ∉ l₁ := by
  have hrun := run_refines h
  refine ⟨?_, fun hcap => Fifo.length_le_cap hrun hcap, ?_⟩
  · rw [← accepted_toFifo, ← taken_toFifo]
    exact Fifo.conserved hrun
  · rintro l₁ v l₂ rfl hmem
    rw [List.map_append, List.map_cons] at hrun
    exact Fifo.not_close_before_put hrun (List.mem_map.mpr ⟨_, hmem, rfl⟩)

/-- A consumer blocks, a producer hands it an item, and a `push` comes after the store of `exit`. -/
def handover : List (Event Nat) :=
  [.internal, .push 7 true, .pop (some 7), .exitStore, .push 8 false]

theorem handover_run : Run Step (Sys.init Nat 1 2) handover ⟨⟨[], 1, true⟩, [.exiting, .idle]⟩ := by
  have hwait : waitReady (⟨[], 1, false⟩ : SafeQueue Nat) waitInfinite = some false := rfl
  have hready : waitsAgain (⟨[7], 1, false⟩ : SafeQueue Nat) false false = false := rfl
  have hpush : push (⟨[], 1, false⟩ : SafeQueue Nat) 7 = (⟨[7], 1, false⟩, true) := rfl
  have hclosed : push (⟨[], 1, true⟩ : SafeQueue Nat) 8 = (⟨[], 1, true⟩, false) := rfl
  have h₁ : Run Step (Sys.init Nat 1 2) [.internal] ⟨⟨[], 1, false⟩, [.blocked false, .idle]⟩ :=
    .single (.block (i := 0) rfl hwait)
  have h₂ := h₁.snoc (.pushOk (i := 1) rfl hpush (.wake (i := 0) rfl))
  have h₃ := h₂.snoc (.popWoken (i := 0) rfl hready rfl)
  have h₄ := h₃.snoc (.exitStore (i := 0) rfl)
  exact h₄.snoc (.pushFail (i := 1) rfl hclosed)

theorem fifo_handover : accepted handover = popped handover ++ [] ∧ (0 < 1 → 0 ≤ 1) ∧
    ∀ l₁ v l₂, handover = l₁ ++ .push v true :: l₂ → .exitStore ∉ l₁ :=
  fifo handover_run

end NetLibrary.SafeQueue
