import NetLibrary.Verify.EventLoop.Pipe

/-!
# `loop` returns

After `exit` the loop thread calls the poller at most twice more. Unless it blocks itself on a full
wake pipe, it returns from `loop` once the calls of `safeCall`, `exit` and `wakeup` cease
(`loop_returns`). This takes for granted that what the loop thread runs comes to an end: the channel
handlers, which do not call `loop_once` themselves, the tasks, and `handleTimeout`, which a repeating timer with
a negative interval would keep going.
-/

namespace NetLibrary.EventLoop
open LTS Threads

variable {τ : Type} {P n : Nat} {taskCapacity : Int} {s s' : Sys τ} {e : Event τ} {es : List (Event τ)}

/-- The first section of a call. -/
def Event.Calls : Event τ → Prop
  | .push _ _ _ | .store _ | .wakeup _ => True
  | _ => False

def Event.isPoll : Event τ → Bool
  | .poll _ => true
  | _ => false

/-- The steps that the loop thread still takes after `exit`, but for the tasks in the queue. -/
def Pc.left : Pc τ → Nat
  | .returned => 0
  | .timers last => 1 + if last then 0 else 6
  | .dispatch last wake => (if wake then 4 else 2) + if last then 0 else 6
  | .drain last => 3 + if last then 0 else 6
  | .task last _ => 4 + if last then 0 else 6
  | .poll last => 5 + if last then 0 else 6
  | .test => 6
  | .before => 7

/-- The calls of the poller that follow. -/
def Pc.polls : Pc τ → Nat
  | .returned => 0
  | .poll last => 1 + if last then 0 else 1
  | .dispatch last _ | .drain last | .task last _ | .timers last => if last then 0 else 1
  | .before | .test => 1

theorem Pc.polls_le : ∀ pc : Pc τ, pc.polls ≤ 2
  | .poll last => by cases last <;> simp [polls]
  | .dispatch last _ | .drain last | .task last _ | .timers last => by cases last <;> simp [polls]
  | .before | .test | .returned => by simp [polls]

def isCall : Call τ → Bool
  | .none => false
  | _ => true

def Sys.left (s : Sys τ) : Nat := s.pc.left + 2 * s.tasks.items.length + s.calls.countP isCall

theorem Step.keeps_exit (h : Step P s e s') (hexit : s.exit = true) : s'.exit = true := by
  cases h with
  | store => rfl
  | push | wakeup | write | loop | test | poll | read | pop | popNone | taskEnd | dispatchEnd | timersEnd =>
    exact hexit

theorem Step.calls_length (h : Step P s e s') : s'.calls.length = s.calls.length := by
  cases h with
  | push | store | wakeup | write => exact List.length_set
  | loop | test | poll | read | pop | popNone | taskEnd | dispatchEnd | timersEnd => rfl

theorem left_lt_of_pc (hpc : s'.pc.left < s.pc.left) (htasks : s'.tasks = s.tasks) (hcalls : s'.calls = s.calls) :
    s'.left < s.left := by
  rw [Sys.left, Sys.left, htasks, hcalls]
  exact Nat.add_lt_add_right (Nat.add_lt_add_right hpc _) _

/-- After `exit` each step but a new call is one less to go. -/
theorem Step.left_lt (h : Step P s e s') (hexit : s.exit = true) (hno : ¬e.Calls) : s'.left < s.left := by
  cases h with
  | push | store | wakeup => exact absurd trivial hno
  | @write i c hat hne =>
    have hcount := hat.countP_set (b := .none) (p := isCall)
    have hc : isCall c = true := by
      cases c with
      | none => exact absurd rfl hne
      | safeCall | exit | wakeup => rfl
    rw [if_pos hc] at hcount
    exact Nat.add_lt_add_left (Nat.lt_of_succ_le (Nat.le_of_eq hcount)) _
  | loop _ hpc | test hpc | dispatchEnd _ hpc | taskEnd _ hpc =>
    refine left_lt_of_pc ?_ rfl rfl
    simp [hpc, hexit, Pc.left]
  | poll hpc | read _ hpc | timersEnd _ hpc =>
    refine left_lt_of_pc ?_ rfl rfl
    rw [hpc]
    dsimp only [Pc.left]
    grind [Pc.left]
  | pop hpc hpop =>
    have hitems := (SafeQueue.popFront_some hpop).1
    simp only [Sys.left, Pc.left, hpc, hitems, List.length_cons]
    omega
  | popNone hpc hpop =>
    obtain ⟨-, rfl⟩ := SafeQueue.popFront_none hpop
    refine left_lt_of_pc ?_ rfl rfl
    simp [hpc, Pc.left]

/-- The last call of the poller is the one of `loop_once(0)`. -/
theorem Step.polls_le (h : Step P s e s') (hexit : s.exit = true) :
    s'.pc.polls + (if e.isPoll then 1 else 0) ≤ s.pc.polls := by
  cases h with
  | push | store | wakeup | write => exact Nat.le_refl _
  | loop _ hpc | test hpc => simp [hpc, hexit, Pc.polls, Event.isPoll]
  | poll hpc | read _ hpc | pop hpc | popNone hpc | taskEnd _ hpc | dispatchEnd _ hpc | timersEnd _ hpc =>
    grind [Pc.polls, Event.isPoll]

/-- Until `loop` returns there is a step to take, but where the loop thread waits for room in the pipe. -/
theorem exists_step (hlen : 0 < s.calls.length) (hpc : s.pc ≠ .returned) (hfree : ¬Blocked P s) :
    ∃ e t, Step P s e t ∧ ¬e.Calls := by
  obtain ⟨c, hc⟩ : ∃ c, At s.calls 0 c := ⟨_, List.getElem?_eq_getElem hlen⟩
  by_cases hne : c = .none
  · subst hne
    cases hcase : s.pc with
    | returned => exact absurd hcase hpc
    | before => exact ⟨_, _, .loop hc hcase, not_false⟩
    | test => exact ⟨_, _, .test hcase, not_false⟩
    | poll last => exact ⟨.poll false, _, .poll hcase nofun, not_false⟩
    | dispatch last wake =>
      cases wake with
      | true => exact ⟨_, _, .read hc hcase, not_false⟩
      | false => exact ⟨_, _, .dispatchEnd hc hcase, not_false⟩
    | drain last =>
      cases hpop : s.tasks.popFront with
      | mk r tasks =>
        cases r with
        | none => exact ⟨_, _, .popNone hcase hpop, not_false⟩
        | some v => exact ⟨_, _, .pop hcase hpop, not_false⟩
    | task last v => exact ⟨_, _, .taskEnd hc hcase, not_false⟩
    | timers last => exact ⟨_, _, .timersEnd hc hcase, not_false⟩
  · have hroom : s.pipe < P := (not_blocked_iff_lt ⟨c, hc, hne⟩).mp hfree
    exact ⟨_, _, .write hc hne hroom, not_false⟩

/-- **`loop` returns.** Once some thread has set `m_exit` the loop thread calls the poller at most twice,
however often `safeCall`, `exit` and `wakeup` are called. Without new calls of them every order of steps comes to
an end, there `loop` has returned, unless its thread has blocked itself on the full wake pipe. Each turn of users'
code, and `handleTimeout`, is one that ends. -/
theorem loop_returns (h : Run (Step P) (Sys.init τ taskCapacity n) es s) (hexit : s.exit = true) :
    (∀ es' t, Run (Step P) s es' t → es'.countP Event.isPoll ≤ 2) ∧
    Terminates (guarded (fun _ e => ¬e.Calls) (Step P)) s ∧
    ∀ es' t, Run (guarded (fun _ e => ¬e.Calls) (Step P)) s es' t →
      (∀ e u, ¬guarded (fun _ e => ¬Event.Calls e) (Step P) t e u) → t.pc = .returned ∨ Blocked P t := by
  have hkeep : ∀ {s e t}, s.exit = true → Step P (τ := τ) s e t → t.exit = true := fun h hs => hs.keeps_exit h
  refine ⟨fun es' t hrun => ?polls, ?ends, fun es' t hrun hstuck => ?last⟩
  case polls =>
    have hle : es'.countP Event.isPoll + t.pc.polls ≤ s.pc.polls :=
      hrun.countP_le (I := fun s => s.exit = true) (fun s => s.pc.polls) hexit
        fun hI hs => ⟨hkeep hI hs, hs.polls_le hI⟩
    exact Nat.le_trans (Nat.le_of_add_right_le hle) s.pc.polls_le
  case ends =>
    refine terminates_of_measure Nat.lt_wfRel.wf (I := fun s => s.exit = true) Sys.left hexit ?_
    exact fun hI hs => ⟨hkeep hI hs.2, hs.2.left_lt hI hs.1⟩
  case last =>
    have hlen : t.calls.length = n + 1 := by
      refine hrun.invariant (I := fun t => t.calls.length = n + 1) ?_ fun hI hs => hs.2.calls_length.trans hI
      refine h.invariant (I := fun s => s.calls.length = n + 1) ?_ fun hI hs => hs.calls_length.trans hI
      exact List.length_replicate
    by_contra hnot
    obtain ⟨hpc, hfree⟩ := not_or.mp hnot
    obtain ⟨e, u, hs, hno⟩ := exists_step (by rw [hlen]; exact Nat.succ_pos n) hpc hfree
    exact hstuck e u ⟨hno, hs⟩

/-- Another thread calls `exit` while the loop thread is in the poller. -/
theorem loop_returns_exit : ∃ es t, Run (guarded (fun _ e => ¬e.Calls) (Step 1))
      (⟨{}, 0, true, .poll false, [.none, .exit]⟩ : Sys Nat) es t ∧
    es.countP Event.isPoll ≤ 2 ∧ (t.pc = .returned ∨ Blocked 1 t) := by
  have h₁ : Run (Step 1) (Sys.init Nat 0 1) [.loop] ⟨{}, 0, false, .test, [.none, .none]⟩ :=
    .single (.loop rfl rfl)
  have h₂ := h₁.snoc (.test rfl)
  have h₃ := h₂.snoc (.store (i := 1) ⟨rfl, nofun⟩)
  obtain ⟨hpolls, hends, hlast⟩ := loop_returns h₃ rfl
  obtain ⟨es, t, hrun, hstuck⟩ := hends.exists_last
  exact ⟨es, t, hrun, hpolls es t (hrun.mono And.right), hlast es t hrun hstuck⟩

end NetLibrary.EventLoop
