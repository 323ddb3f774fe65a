import NetLibrary.Model.EventLoop
import NetLibrary.Verify.SafeQueue.Fifo

/-!
# The tasks of the event loop

`m_tasks` is a bounded queue from which only the loop thread takes tasks, to run them. A task that is
in it is never stranded: the pipe holds a byte, or a caller is about to write one, or the loop thread
is draining the queue (`no_stranded`). What `safeCall` loses is exactly what `push` turns away for
want of room, since it does not look at the result (`kept_iff`).
-/

namespace NetLibrary.EventLoop
open LTS Threads

variable {τ : Type} {P n : Nat} {taskCapacity : Int} {s s' : Sys τ} {e : Event τ}
  {es : List (Event τ)} {i : Nat} {c : Call τ}

/-! ## The queue -/

/-- The handler calls `pop_wait(&task, 0)`, which does not wait. -/
theorem waitReady_zero {q : SafeQueue τ} : q.waitReady 0 = none := by
  rw [SafeQueue.waitReady]
  split
  · rfl
  · rfl

def Event.toFifo : Event τ → Fifo.Event τ
  | .push _ v accepted => .put v accepted
  | .pop r => .take r
  | _ => .other

/-- Every step is a step of the bounded queue, and none changes the capacity. -/
theorem Step.refines (h : Step P s e s') :
    Fifo.Step s.tasks.capacity s.tasks.abs e.toFifo s'.tasks.abs ∧
      s'.tasks.capacity = s.tasks.capacity := by
  cases h with
  | @push _ _ accepted _ _ hpush =>
    cases accepted with
    | true =>
      obtain ⟨hopen, hroom, rfl⟩ := SafeQueue.push_true hpush
      exact ⟨.put hopen hroom, rfl⟩
    | false =>
      obtain rfl := SafeQueue.push_false hpush
      exact ⟨.full, rfl⟩
  | pop _ hpop | popNone _ hpop => exact SafeQueue.popFront_refines hpop
  | store | wakeup | write | loop | test | poll | read | taskEnd | dispatchEnd | timersEnd =>
    exact ⟨.other, rfl⟩

theorem run_refines (h : Run (Step P) s es s') :
    Run (Fifo.Step s.tasks.capacity) s.tasks.abs (es.map Event.toFifo) s'.tasks.abs := by
  obtain ⟨a, hrun, rfl, -⟩ := h.simulation_map
    (R := fun t a => a = t.tasks.abs ∧ t.tasks.capacity = s.tasks.capacity) (a := s.tasks.abs)
    ⟨rfl, rfl⟩
    (by
      rintro s a e t ⟨rfl, hcap⟩ hstep
      obtain ⟨hfifo, hcap'⟩ := hstep.refines
      exact ⟨_, hcap ▸ hfifo, rfl, hcap'.trans hcap⟩)
  exact hrun

/-- The tasks that `push` accepted, in this order. -/
def accepted (es : List (Event τ)) : List τ := Fifo.accepted (es.map Event.toFifo)

/-- The tasks that the loop thread has taken out of the queue. -/
def popped (es : List (Event τ)) : List τ := Fifo.taken (es.map Event.toFifo)

/-- The tasks that `safeCall` was called with, in the order of their locked pushes. -/
def called (es : List (Event τ)) : List τ :=
  es.filterMap fun
    | .push _ v _ => some v
    | _ => none

/-- The tasks that have been executed, in this order. -/
def finished (es : List (Event τ)) : List τ :=
  es.filterMap fun
    | .taskEnd v => some v
    | _ => none

/-- The task that is being executed. -/
def Pc.running : Pc τ → Option τ
  | .task _ v => some v
  | _ => none

@[simp] theorem accepted_append (es es' : List (Event τ)) :
    accepted (es ++ es') = accepted es ++ accepted es' := by simp [accepted]

@[simp] theorem popped_append (es es' : List (Event τ)) :
    popped (es ++ es') = popped es ++ popped es' := by simp [popped]

@[simp] theorem called_append (es es' : List (Event τ)) :
    called (es ++ es') = called es ++ called es' := List.filterMap_append

@[simp] theorem finished_append (es es' : List (Event τ)) :
    finished (es ++ es') = finished es ++ finished es' := List.filterMap_append

/-- The queue hands the accepted tasks on, in order. -/
theorem conserved (h : Run (Step P) s es s') :
    s.tasks.items ++ accepted es = popped es ++ s'.tasks.items :=
  Fifo.run_conserved (run_refines h)

theorem Step.running (h : Step P s e s') :
    s.pc.running.toList ++ popped [e] = finished [e] ++ s'.pc.running.toList := by
  cases h with
  | push | store | wakeup | write => simp [popped, finished, Fifo.taken, Event.toFifo]
  | loop _ hpc | test hpc | poll hpc | pop hpc | popNone hpc | taskEnd _ hpc | dispatchEnd _ hpc =>
    simp [hpc, popped, finished, Fifo.taken, Event.toFifo, Pc.running]
  | read _ hpc =>
    simp only [hpc]
    split <;> simp [popped, finished, Fifo.taken, Event.toFifo, Pc.running]
  | timersEnd _ hpc =>
    simp only [hpc]
    split <;> simp [popped, finished, Fifo.taken, Event.toFifo, Pc.running]

/-- A task that was taken out has been executed or is being executed. -/
theorem popped_eq (h : Run (Step P) (Sys.init τ taskCapacity n) es s) :
    popped es = finished es ++ s.pc.running.toList := by
  induction h with
  | nil => rfl
  | snoc _ hs ih =>
    rw [popped_append, finished_append, ih, List.append_assoc, hs.running, List.append_assoc]

/-- Where the accepted tasks are. -/
theorem accepted_eq (h : Run (Step P) (Sys.init τ taskCapacity n) es s) :
    accepted es = finished es ++ s.pc.running.toList ++ s.tasks.items := by
  rw [← popped_eq h]
  exact conserved h

/-! ## No accepted task is stranded -/

/-- The loop thread is between a `read` of the pipe that found bytes and the `pop_wait` that finds no
task. -/
def Pc.draining : Pc τ → Prop
  | .drain _ | .task _ _ => True
  | _ => False

/-- Somebody will take the queued tasks out. -/
def Attended (s : Sys τ) : Prop :=
  s.tasks.items = [] ∨ 0 < s.pipe ∨ (∃ v, .safeCall v true ∈ s.calls) ∨ s.pc.draining

/-- A step that leaves the queue and the pipe alone, and no drain and no `safeCall`. -/
theorem Attended.keeps (h : Attended s) (htasks : s'.tasks = s.tasks) (hpipe : s'.pipe = s.pipe)
    (hcalls : ∀ v, .safeCall v true ∈ s.calls → .safeCall v true ∈ s'.calls)
    (hpc : s.pc.draining → s'.pc.draining) : Attended s' := by
  rcases h with hitems | hbyte | ⟨v, hv⟩ | hdrain
  · exact .inl (htasks ▸ hitems)
  · exact .inr (.inl (hpipe ▸ hbyte))
  · exact .inr (.inr (.inl ⟨v, hcalls v hv⟩))
  · exact .inr (.inr (.inr (hpc hdrain)))

theorem Attended.step (h : Attended s) (hs : Step P s e s') : Attended s' := by
  cases hs with
  | @push i v accepted _ hturn hpush =>
    cases accepted with
    | true => exact .inr (.inr (.inl ⟨v, hturn.1.mem_set⟩))
    | false =>
      obtain rfl := SafeQueue.push_false hpush
      exact h.keeps rfl rfl (fun _ hv => hturn.1.mem_set_of_ne hv nofun) fun hpc => hpc
  | store hturn | wakeup hturn =>
    exact h.keeps rfl rfl (fun _ hv => hturn.1.mem_set_of_ne hv nofun) fun hpc => hpc
  | write => exact .inr (.inl (Nat.succ_pos _))
  | loop _ hpc | test hpc | poll hpc | dispatchEnd _ hpc | timersEnd _ hpc =>
    refine h.keeps rfl rfl (fun _ hv => hv) fun hdrain => ?_
    rw [hpc] at hdrain
    exact hdrain.elim
  | read _ hpc =>
    by_cases hempty : s.pipe = 0
    · refine h.keeps rfl ?_ (fun _ hv => hv) fun hdrain => ?_
      · simp [hempty]
      · rw [hpc] at hdrain
        exact hdrain.elim
    · simp only [if_neg hempty]
      exact .inr (.inr (.inr trivial))
  | pop | taskEnd => exact .inr (.inr (.inr trivial))
  | popNone _ hpop =>
    obtain ⟨hitems, rfl⟩ := SafeQueue.popFront_none hpop
    exact .inl hitems

/-- **No accepted task is stranded.** In every interleaving, while there is a task in `m_tasks` the
pipe holds a byte, or a caller has pushed a task and not yet written its byte, or the loop thread is
draining the queue. -/
theorem no_stranded (h : Run (Step P) (Sys.init τ taskCapacity n) es s) (hitems : s.tasks.items ≠ []) :
    0 < s.pipe ∨ (∃ v, .safeCall v true ∈ s.calls) ∨ s.pc.draining := by
  have hattended : Attended s := h.invariant (I := Attended) (.inl rfl) Attended.step
  exact hattended.resolve_left hitems

/-- Another thread posts a task, and the loop thread reads the byte. -/
theorem no_stranded_drain : ∃ es s, Run (Step 1) (Sys.init Nat 0 1) es s ∧ s.tasks.items = [7] ∧
    (0 < s.pipe ∨ (∃ v, .safeCall v true ∈ s.calls) ∨ s.pc.draining) := by
  have hrun : ∃ s, Run (Step 1) (Sys.init Nat 0 1)
      [.push 1 7 true, .write 1, .loop, .test, .poll true, .read] s ∧ s.tasks.items = [7] := by
    refine ⟨?s, ?run, ?facts⟩
    case run =>
      refine .cons (.push ⟨rfl, nofun⟩ rfl) ?_
      refine .cons (.write rfl nofun (by decide)) ?_
      refine .cons (.loop rfl rfl) ?_
      refine .cons (.test rfl) ?_
      refine .cons (.poll rfl fun _ => by decide) ?_
      refine .cons (.read rfl rfl) ?_
      exact .nil
    case facts => rfl
  obtain ⟨s, hrun, hitems⟩ := hrun
  exact ⟨_, s, hrun, hitems, no_stranded hrun (by rw [hitems]; nofun)⟩

/-! ## What `safeCall` loses -/

/-- Every task that `safeCall` was called with has been executed, once and in its turn, or is being
executed, or is queued. -/
def Kept (es : List (Event τ)) (s : Sys τ) : Prop :=
  called es = finished es ++ s.pc.running.toList ++ s.tasks.items

/-- A `push` finds room in the queue. -/
def Room (s : Sys τ) : Event τ → Prop
  | .push _ _ _ => s.tasks.capacity = 0 ∨ s.tasks.items.length < s.tasks.capacity
  | _ => True

/-- No `push` has been turned away. -/
def AllAccepted (es : List (Event τ)) : Prop := ∀ i v, .push i v false ∉ es

theorem allAccepted_snoc_iff : AllAccepted (es ++ [e]) ↔ AllAccepted es ∧ ∀ i v, e ≠ .push i v false := by
  simp only [AllAccepted, List.mem_append, List.mem_singleton, not_or]
  exact ⟨fun h => ⟨fun i v => (h i v).1, fun i v heq => (h i v).2 heq.symm⟩,
    fun h i v => ⟨h.1 i v, fun heq => h.2 i v heq.symm⟩⟩

theorem accepted_sublist : (accepted es).Sublist (called es) := by
  induction es using List.reverseRecOn with
  | nil => exact .slnil
  | append_singleton es e ih =>
    rw [accepted_append, called_append]
    apply ih.append
    match e with
    | .push i v true => exact .refl _
    | .push i v false => exact List.nil_sublist _
    | .store _ | .wakeup _ | .write _ | .loop | .test | .poll _ | .read | .pop _ | .taskEnd _
    | .dispatchEnd | .timersEnd => exact .refl _

/-- A task that was turned away makes the called tasks more than the accepted ones. -/
theorem length_called_iff : (called es).length = (accepted es).length ↔ AllAccepted es := by
  induction es using List.reverseRecOn with
  | nil => exact iff_of_true rfl fun _ _ => List.not_mem_nil
  | append_singleton es e ih =>
    have hle : (accepted es).length ≤ (called es).length := accepted_sublist.length_le
    rw [accepted_append, called_append, List.length_append, List.length_append, allAccepted_snoc_iff,
      ← ih]
    match e with
    | .push i v true => simp [accepted, called, Fifo.accepted, Event.toFifo]
    | .push i v false =>
      refine iff_of_false ?_ fun h => h.2 i v rfl
      simp only [accepted, called, Fifo.accepted, Event.toFifo, List.map_cons, List.map_nil,
        List.filterMap_cons, List.filterMap_nil, List.length_cons, List.length_nil] at hle ⊢
      omega
    | .store _ | .wakeup _ | .write _ | .loop | .test | .poll _ | .read | .pop _ | .taskEnd _
    | .dispatchEnd | .timersEnd => simp [accepted, called, Fifo.accepted, Event.toFifo]

theorem called_eq_iff : called es = accepted es ↔ AllAccepted es := by
  refine ⟨fun h => length_called_iff.mp (congrArg List.length h), fun h => ?_⟩
  exact (accepted_sublist.eq_of_length (length_called_iff.mpr h).symm).symm

/-- `exit` of the event loop is not the one of its queue. -/
theorem Step.tasks_exit (h : Step P s e s') (hexit : s.tasks.exit = false) :
    s'.tasks.exit = false := by
  cases h with
  | @push _ _ accepted _ _ hpush =>
    cases accepted with
    | true =>
      obtain ⟨-, -, rfl⟩ := SafeQueue.push_true hpush
      exact hexit
    | false =>
      obtain rfl := SafeQueue.push_false hpush
      exact hexit
  | pop _ hpop =>
    obtain ⟨-, htasks⟩ := SafeQueue.popFront_some hpop
    rw [htasks]
    exact hexit
  | popNone _ hpop =>
    obtain ⟨-, rfl⟩ := SafeQueue.popFront_none hpop
    exact hexit
  | store | wakeup | write | loop | test | poll | read | taskEnd | dispatchEnd | timersEnd =>
    exact hexit

theorem run_tasks_exit (h : Run (Step P) (Sys.init τ taskCapacity n) es s) : s.tasks.exit = false :=
  h.invariant (I := fun s => s.tasks.exit = false) rfl fun hexit hs => hs.tasks_exit hexit

/-- `push` accepts a task exactly when there is room. -/
theorem Step.room_iff (h : Step P s e s') (hexit : s.tasks.exit = false) :
    Room s e ↔ ∀ i v, e ≠ .push i v false := by
  cases h with
  | @push _ _ accepted _ _ hpush =>
    cases accepted with
    | true =>
      obtain ⟨-, hroom, -⟩ := SafeQueue.push_true hpush
      exact iff_of_true hroom nofun
    | false =>
      refine iff_of_false (fun hroom => ?_) fun h => h _ _ rfl
      have hroom : s.tasks.capacity = 0 ∨ s.tasks.items.length < s.tasks.capacity := hroom
      rw [SafeQueue.push, if_neg (by simp [hexit]; omega)] at hpush
      cases hpush
  | store | wakeup | write | loop | test | poll | read | pop | popNone | taskEnd | dispatchEnd
  | timersEnd => exact iff_of_true trivial nofun

theorem run_room_iff (h : Run (Step P) (Sys.init τ taskCapacity n) es s) :
    Run (guarded Room (Step P)) (Sys.init τ taskCapacity n) es s ↔ AllAccepted es := by
  have hiff : Run (guarded Room (Step P)) (Sys.init τ taskCapacity n) es s ↔
      Run (guarded (fun _ e => ∀ i v, e ≠ .push i v false) (Step P)) (Sys.init τ taskCapacity n) es s :=
    run_guarded_iff fun hrun hs => hs.room_iff (run_tasks_exit hrun)
  rw [hiff, run_guarded_event_iff]
  constructor
  · intro hall i v hmem
    exact hall.2 _ hmem i v rfl
  · intro hall
    refine ⟨h, ?_⟩
    rintro e hmem i v rfl
    exact hall i v hmem

/-- **What `safeCall` keeps.** In every interleaving and for every capacity, all tasks that `safeCall`
was called with are executed, being executed or queued exactly when every `push` has found room in the
queue. A queued task is the result of exactly one later pop, in its turn. -/
theorem kept_iff (h : Run (Step P) (Sys.init τ taskCapacity n) es s) :
    (Kept es s ↔ Run (guarded Room (Step P)) (Sys.init τ taskCapacity n) es s) ∧
    ∀ es' s', Run (Step P) s es' s' →
      s.tasks.items ++ accepted es' = popped es' ++ s'.tasks.items := by
  refine ⟨?_, fun es' s' hrest => conserved hrest⟩
  rw [run_room_iff h, Kept, ← accepted_eq h, called_eq_iff]

theorem room_run : Run (Step 1) (Sys.init Nat 1 1) [.push 1 7 true, .write 1]
    ⟨⟨[7], 1, false⟩, 1, false, .before, [.none, .none]⟩ := by
  have hpush : SafeQueue.push (⟨[], 1, false⟩ : SafeQueue Nat) 7 = (⟨[7], 1, false⟩, true) := rfl
  refine .cons (.push ⟨rfl, nofun⟩ hpush) ?_
  refine .cons (.write rfl nofun (by decide)) ?_
  exact .nil

theorem kept_iff_room : Kept [.push 1 7 true, .write 1]
    ⟨⟨[7], 1, false⟩, 1, false, .before, [.none, .none]⟩ := by
  have hpush : SafeQueue.push (⟨[], 1, false⟩ : SafeQueue Nat) 7 = (⟨[7], 1, false⟩, true) := rfl
  refine (kept_iff room_run).1.mpr (.cons ⟨.inr (by decide), .push ⟨rfl, nofun⟩ hpush⟩ ?_)
  exact .single ⟨trivial, .write rfl nofun (by decide)⟩

/-- A second task does not fit into a queue of capacity one, and is lost. -/
theorem not_kept : ¬∀ (P n : Nat) (taskCapacity : Int) (es : List (Event Nat)) (s : Sys Nat),
    Run (Step P) (Sys.init Nat taskCapacity n) es s → Kept es s := by
  intro h
  have hfull : SafeQueue.push (⟨[7], 1, false⟩ : SafeQueue Nat) 8 = (⟨[7], 1, false⟩, false) := rfl
  have hkept := h 1 1 1 _ _ (room_run.snoc (.push (i := 1) ⟨rfl, nofun⟩ hfull))
  cases hkept

end NetLibrary.EventLoop
