import NetLibrary.Verify.EventLoop.Tasks

/-!
# One wake-up of the event loop

The handler of the wake pipe takes tasks until it finds none, those included that the tasks have
posted meanwhile. `wakeupHandler_run` says that it is a run of the loop thread, and `returns_iff` when
it comes to an end.
-/

namespace NetLibrary.EventLoop
open LTS Threads

variable {τ : Type} {P n : Nat} {taskCapacity : Int} {s s' : Sys τ} {es : List (Event τ)}
  {posts : Nat → List τ} {last : Bool} {fuel i : Nat} {v : τ} {vs ran : List τ}

namespace Sys

/-! ## The handler is a run of the loop thread -/

/-- A task calls `safeCall`, and nobody else does anything. -/
theorem safeCall_run (hcall : At s.calls 0 .none) (hpc : s.pc.userTurn = true) (hroom : s.pipe < P) :
    ∃ es, Run (Step P) s es (s.safeCall v) ∧ finished es = [] := by
  obtain ⟨⟨tasks, accepted⟩, hpush⟩ : ∃ r, s.tasks.push v = r := ⟨_, rfl⟩
  have hwrite := Step.write (P := P)
    (s := { s with tasks, calls := s.calls.set 0 (.safeCall v accepted) }) hcall.set nofun hroom
  refine ⟨[.push 0 v accepted, .write 0], .cons (.push ⟨hcall, fun _ => hpc⟩ hpush) (.cons ?_ .nil), rfl⟩
  simp only [hcall.set_back] at hwrite
  rw [safeCall, hpush]
  exact hwrite

/-- `safeCall` does not look at `pc`. -/
theorem foldl_safeCall_pc {pc : Pc τ} :
    vs.foldl safeCall { s with pc } = { vs.foldl safeCall s with pc } := by
  induction vs generalizing s with
  | nil => rfl
  | cons v vs ih => exact ih (s := s.safeCall v)

@[simp] theorem foldl_safeCall_calls : (vs.foldl safeCall s).calls = s.calls := by
  induction vs generalizing s with
  | nil => rfl
  | cons v vs ih => exact ih

theorem foldl_safeCall_pipe : (vs.foldl safeCall s).pipe = s.pipe + vs.length := by
  induction vs generalizing s with
  | nil => rfl
  | cons v vs ih =>
    rw [List.foldl_cons, ih, List.length_cons]
    simp only [safeCall]
    omega

theorem foldl_safeCall_run (hcall : At s.calls 0 .none) (hpc : s.pc.userTurn = true)
    (hroom : s.pipe + vs.length ≤ P) :
    ∃ es, Run (Step P) s es (vs.foldl safeCall s) ∧ finished es = [] := by
  induction vs generalizing s with
  | nil => exact ⟨[], .nil, rfl⟩
  | cons v vs ih =>
    rw [List.length_cons] at hroom
    obtain ⟨es₁, hrun₁, hfin₁⟩ := safeCall_run (v := v) hcall hpc (P := P) (by omega)
    obtain ⟨es₂, hrun₂, hfin₂⟩ := ih (s := s.safeCall v) hcall hpc (by simp only [safeCall]; omega)
    refine ⟨es₁ ++ es₂, hrun₁.append hrun₂, ?_⟩
    rw [finished_append, hfin₁, hfin₂, List.append_nil]

/-- What one turn of the loop does. -/
theorem drain_cases (h : s.drain posts (fuel + 1) i = some (ran, s')) :
    (∃ tasks, s.tasks.popFront = (none, tasks) ∧ ran = [] ∧ s' = { s with tasks }) ∨
    ∃ v tasks ran', s.tasks.popFront = (some v, tasks) ∧ ran = v :: ran' ∧
      ((posts i).foldl safeCall { s with tasks }).drain posts fuel (i + 1) = some (ran', s') := by
  rw [drain] at h
  split at h
  · rename_i tasks hpop
    cases h
    exact .inl ⟨tasks, hpop, rfl, rfl⟩
  · rename_i v tasks hpop
    obtain ⟨⟨ran', t⟩, hrest, heq⟩ := Option.map_eq_some_iff.mp h
    cases heq
    exact .inr ⟨v, tasks, ran', hpop, rfl, hrest⟩

/-- The handler does not read the pipe again, and what `safeCall` writes stays there. -/
theorem drain_pipe_le (h : s.drain posts fuel i = some (ran, s')) : s.pipe ≤ s'.pipe := by
  induction fuel generalizing i s ran with
  | zero => cases h
  | succ fuel ih =>
    obtain ⟨tasks, -, -, rfl⟩ | ⟨v, tasks, ran', -, -, hrest⟩ := drain_cases h
    · exact Nat.le_refl _
    · have hle := ih hrest
      rw [foldl_safeCall_pipe] at hle
      exact Nat.le_of_add_right_le hle

theorem drain_run (hcall : At s.calls 0 .none) (h : s.drain posts fuel i = some (ran, s'))
    (hroom : s'.pipe ≤ P) :
    ∃ es, Run (Step P) { s with pc := .drain last } es { s' with pc := .dispatch last false } ∧
      finished es = ran := by
  induction fuel generalizing i s ran with
  | zero => cases h
  | succ fuel ih =>
    obtain ⟨tasks, hpop, rfl, rfl⟩ | ⟨v, tasks, ran', hpop, rfl, hrest⟩ := drain_cases h
    · exact ⟨[.pop none], .cons (.popNone rfl hpop) .nil, rfl⟩
    · have hposted : s.pipe + (posts i).length ≤ P := by
        have hle := drain_pipe_le hrest
        rw [foldl_safeCall_pipe] at hle
        exact Nat.le_trans hle hroom
      obtain ⟨es₁, hposts, hfin₁⟩ : ∃ es₁, Run (Step P) { s with tasks, pc := .task last v } es₁
          ((posts i).foldl safeCall { s with tasks, pc := .task last v }) ∧ finished es₁ = [] :=
        foldl_safeCall_run hcall rfl hposted
      have hcall' : At ((posts i).foldl safeCall { s with tasks }).calls 0 .none := by
        rw [foldl_safeCall_calls]
        exact hcall
      obtain ⟨es₂, hloop, hfin₂⟩ := ih hcall' hrest
      rw [foldl_safeCall_pc (s := { s with tasks })] at hposts
      have hpopped : Step P { s with pc := .drain last } (.pop (some v))
          { s with tasks, pc := .task last v } := .pop rfl hpop
      have hended : Step P { (posts i).foldl safeCall { s with tasks } with pc := .task last v }
          (.taskEnd v) { (posts i).foldl safeCall { s with tasks } with pc := .drain last } :=
        .taskEnd hcall' rfl
      refine ⟨.pop (some v) :: (es₁ ++ .taskEnd v :: es₂),
        .cons hpopped (hposts.append (.cons hended hloop)), ?_⟩
      have hfin : finished (.pop (some v) :: (es₁ ++ .taskEnd v :: es₂)) =
          finished es₁ ++ v :: finished es₂ := by simp [finished]
      rw [hfin, hfin₁, hfin₂, List.nil_append]

/-- **A wake-up is a run of the loop thread** in which it executes these tasks and then goes on to the
other channels and the timers. -/
theorem wakeupHandler_run (hcall : At s.calls 0 .none) (hpc : s.pc = .dispatch last true)
    (h : s.wakeupHandler posts fuel = some (ran, s')) (hroom : s'.pipe ≤ P) :
    ∃ es, Run (Step P) s es { s' with pc := .dispatch last false } ∧ finished es = ran := by
  have hread := Step.read (P := P) hcall hpc
  rw [wakeupHandler] at h
  split at h
  · rename_i hempty
    cases h
    have hkept : { s with pipe := s.pipe - min s.pipe 1024, pc := .dispatch last false } =
        { s with pc := .dispatch last false } := by simp [hempty]
    rw [if_pos hempty, hkept] at hread
    exact ⟨[.read], .cons hread .nil, rfl⟩
  · rename_i hbyte
    rw [if_neg hbyte] at hread
    obtain ⟨es, hrun, hfin⟩ := drain_run (s := { s with pipe := s.pipe - min s.pipe 1024 }) hcall h hroom
    refine ⟨.read :: es, .cons hread hrun, ?_⟩
    rw [← hfin]
    rfl

end Sys

/-! ## When it returns -/

/-- An open queue of this capacity with `k` items. -/
structure Holds (cap k : Nat) (q : SafeQueue τ) : Prop where
  exit : q.exit = false
  capacity : q.capacity = cap
  length : q.items.length = k
  le : cap ≠ 0 → k ≤ cap

theorem Holds.push {q : SafeQueue τ} (h : Holds cap k q) :
    Holds cap (Fifo.fill cap k 1) (q.push v).1 := by
  obtain ⟨hexit, rfl, rfl, hle⟩ := h
  rw [SafeQueue.push]
  split
  · rename_i hfull
    simp only [hexit, Bool.false_or, Bool.and_eq_true, bne_iff_ne, decide_eq_true_eq] at hfull
    refine ⟨hexit, rfl, ?_, Fifo.fill_le⟩
    rw [Fifo.fill, if_neg hfull.1]
    rw [Nat.min_eq_left (Nat.le_succ_of_le hfull.2)]
    exact Nat.le_antisymm (hle hfull.1) hfull.2
  · rename_i hroom
    simp only [hexit, Bool.false_or, Bool.and_eq_true, bne_iff_ne, decide_eq_true_eq] at hroom
    refine ⟨hexit, rfl, ?_, Fifo.fill_le⟩
    rw [List.length_append, List.length_singleton, Fifo.fill]
    split <;> omega

theorem Holds.safeCall (h : Holds cap k s.tasks) : Holds cap (Fifo.fill cap k 1) (s.safeCall v).tasks :=
  h.push

theorem Holds.foldl_safeCall (h : Holds cap k s.tasks) :
    Holds cap (Fifo.fill cap k vs.length) (vs.foldl Sys.safeCall s).tasks := by
  induction vs generalizing k s with
  | nil =>
    rw [List.length_nil, Fifo.fill_zero h.le]
    exact h
  | cons v vs ih =>
    rw [List.length_cons, Nat.add_comm, ← Fifo.fill_fill]
    exact ih h.safeCall

theorem Holds.popFront_some {q q' : SafeQueue τ} (h : Holds cap k q) (hpop : q.popFront = (some v, q')) :
    ∃ j, k = j + 1 ∧ Holds cap j q' := by
  obtain ⟨hitems, hq⟩ := SafeQueue.popFront_some hpop
  have hlength := h.length
  rw [hitems, List.length_cons] at hlength
  refine ⟨q'.items.length, hlength.symm, ?_, ?_, rfl, fun hcap => ?_⟩
  · rw [hq]
    exact h.exit
  · rw [hq]
    exact h.capacity
  · have hle := h.le hcap
    omega

/-- The loop counts its queue down to nothing. -/
theorem Holds.empties (h : Holds cap k s.tasks) (hdrain : s.drain posts fuel i = some (ran, s')) :
    Fifo.Empties cap (fun j => (posts j).length) i k := by
  induction fuel generalizing i s ran k with
  | zero => cases hdrain
  | succ fuel ih =>
    obtain ⟨tasks, hpop, rfl, rfl⟩ | ⟨v, tasks, ran', hpop, rfl, hrest⟩ := Sys.drain_cases hdrain
    · obtain ⟨hitems, -⟩ := SafeQueue.popFront_none hpop
      have hlength := h.length
      rw [hitems] at hlength
      rw [← hlength]
      exact .done
    · obtain ⟨j, rfl, hj⟩ := h.popFront_some hpop
      exact .next (ih (Holds.foldl_safeCall (s := { s with tasks }) hj) hrest)

theorem Holds.drain (h : Holds cap k s.tasks)
    (hk : Fifo.Empties cap (fun j => (posts j).length) i k) :
    ∃ fuel ran s', s.drain posts fuel i = some (ran, s') := by
  induction hk generalizing s with
  | done =>
    refine ⟨1, [], s, ?_⟩
    rw [Sys.drain, SafeQueue.popFront, List.length_eq_zero_iff.mp h.length]
  | @next i k _ ih =>
    obtain ⟨v, rest, hitems⟩ := List.exists_cons_of_length_eq_add_one h.length
    have hpop : s.tasks.popFront = (some v, { s.tasks with items := rest }) := by
      rw [SafeQueue.popFront, hitems]
    obtain ⟨j, hj, hrest⟩ := h.popFront_some hpop
    cases hj
    obtain ⟨fuel, ran, s', hdrain⟩ := ih (hrest.foldl_safeCall (s := { s with tasks := _ }))
    refine ⟨fuel + 1, v :: ran, s', ?_⟩
    rw [Sys.drain, hpop]
    simp only [hdrain, Option.map_some]

/-- One call of the handler executes finitely many tasks and returns. -/
def Returns (s : Sys τ) (posts : Nat → List τ) : Prop :=
  ∃ fuel ran s', s.wakeupHandler posts fuel = some (ran, s')

/-- The pipe holds no byte, or the tasks post no more than are executed: for the queued tasks and some
number of executions, or, counted from a moment when `m_tasks` was full, for its capacity. -/
def Settles (s : Sys τ) (posts : Nat → List τ) : Prop :=
  s.pipe = 0 ∨ Fifo.Dwindles s.tasks.capacity (fun i => (posts i).length) 0 s.tasks.items.length

theorem run_holds (h : Run (Step P) (Sys.init τ taskCapacity n) es s) :
    Holds s.tasks.capacity s.tasks.items.length s.tasks := by
  have hcap : s.tasks.capacity = capacity taskCapacity :=
    h.invariant (I := fun s => s.tasks.capacity = capacity taskCapacity) rfl fun hs hstep =>
      hstep.refines.2.trans hs
  have hfifo : Run (Fifo.Step (capacity taskCapacity)) {} (es.map Event.toFifo) s.tasks.abs := run_refines h
  refine ⟨run_tasks_exit h, rfl, rfl, fun hne => ?_⟩
  rw [hcap] at hne ⊢
  exact Fifo.length_le_cap hfifo (Nat.pos_of_ne_zero hne)

/-- **When a wake-up ends.** In every reachable state of the event loop and whatever each execution of
a task posts, the handler of the wake pipe returns exactly when the posts dwindle. -/
theorem returns_iff (h : Run (Step P) (Sys.init τ taskCapacity n) es s) :
    Returns s posts ↔ Settles s posts := by
  have hholds : Holds s.tasks.capacity s.tasks.items.length
      { s with pipe := s.pipe - min s.pipe 1024 }.tasks := run_holds h
  unfold Returns Settles
  simp only [Sys.wakeupHandler]
  by_cases hempty : s.pipe = 0
  · simp only [if_pos hempty]
    exact iff_of_true ⟨0, [], s, rfl⟩ (.inl hempty)
  · simp only [if_neg hempty]
    rw [or_iff_right hempty, ← Fifo.empties_iff hholds.le]
    exact ⟨fun ⟨fuel, ran, s', hdrain⟩ => hholds.empties hdrain, fun hk => hholds.drain hk⟩

/-- The one queued task posts nothing. -/
theorem returns_iff_quiet : Returns ⟨⟨[7], 1, false⟩, 1, false, .before, [.none, .none]⟩ fun _ => [] :=
  (returns_iff room_run).mpr (.inr (.inl ⟨1, by decide⟩))

theorem drain_repost {s : Sys Nat} (htasks : s.tasks = ⟨[7], 1, false⟩) :
    s.drain (fun _ => [7]) fuel i = none := by
  induction fuel generalizing i s with
  | zero => rfl
  | succ fuel ih =>
    rw [Sys.drain, htasks]
    simp only [SafeQueue.popFront, Option.map_eq_none_iff]
    exact ih rfl

/-- A task that posts itself again is executed for ever. -/
theorem not_returns : ¬∀ (P n : Nat) (taskCapacity : Int) (es : List (Event Nat)) (s : Sys Nat)
    (posts : Nat → List Nat), Run (Step P) (Sys.init Nat taskCapacity n) es s → Returns s posts := by
  intro h
  obtain ⟨fuel, ran, s', hreturn⟩ := h 1 1 1 _ _ (fun _ => [7]) room_run
  rw [Sys.wakeupHandler, if_neg (by decide), drain_repost rfl] at hreturn
  cases hreturn

end NetLibrary.EventLoop
