import NetLibrary.Verify.Timer.Cancel

/-!
# The task that is running

`handleTimeout` moves the task of a one-shot timer out of `m_timers` before it calls it. The task of a
repeating timer is called in its node of `m_timerRepeats`, from which `cancel` erases: it lives until it
returns exactly when it does not cancel its own timer (`holds_iff`).
-/

namespace NetLibrary.EventBase
open LTS Timers

variable {τ : Type} {b b' : EventBase τ} {c c' : Config τ} {a : Action τ} {es es' : List (Action τ)}
  {id k p : TimerId} {t : TimerTask τ} {tr : TimerRepeatable τ} {task : τ} {now clock : Int}

/-- What holds the function object that is being executed. -/
inductive Storage (τ : Type)
  /-- The variable `task` of `handleTimeout`, with this value. -/
  | frame (task : τ)
  /-- The member `task` of a node of `m_timerRepeats`. -/
  | node (p : TimerId)

/-- Where the user's task is while it is executed. -/
def storage : TimerTask τ → Storage τ
  | .user task => .frame task
  | .repeatable p => .node p

/-- The function object `task` is there. -/
def Storage.Holds (b : EventBase τ) (task : τ) : Storage τ → Prop
  | .frame v => v = task
  | .node p => ∃ tr, b.timerRepeats[p]? = some tr ∧ tr.task = task

/-- The task does not erase the node it is executed in. The other branch of `cancel` does not look into
`m_timerRepeats`. -/
def Spared (t : TimerTask τ) (es : List (Action τ)) : Prop :=
  match t with
  | .user _ => True
  | .repeatable p => p.first < 0 → ∀ result, .cancel p result ∉ es

/-! ## A node and the users' calls -/

/-- What users do while a task runs leaves a node alone, unless they cancel it. -/
theorem Step.node (h : Inv c.base) (hs : Step c a c') (hphase : c.phase = .inTask now)
    (hend : a ≠ .taskEnd) (hcancel : p.first < 0 → ∀ result, a ≠ .cancel p result) :
    c'.phase = .inTask now ∧
      (c.base.timerRepeats[p]? = some tr → c'.base.timerRepeats[p]? = some tr) := by
  cases hs with
  | runAt _ _ hrun | runAtExited _ _ hrun => exact ⟨hphase, fun htr => (h.runAt_keeps hrun).2 p tr htr⟩
  | exit => exact ⟨hphase, fun htr => htr⟩
  | taskEnd => exact absurd rfl hend
  | handleTimeout | start | timeoutHandled | loopEnd => cases hphase
  | @cancel _ _ _ id result _ hrun =>
    refine ⟨hphase, fun htr => ?_⟩
    by_cases hid : id.first < 0
    · obtain ⟨tr', htr', -, -, -, hnodes⟩ := cancel_repeating hrun hid
      have hne : id ≠ p := by
        rintro rfl
        exact hcancel hid result rfl
      rw [hnodes, TimerId.getElem?_erase, if_neg hne]
      exact htr
    · rcases cancel_oneShot hrun hid with ⟨-, -, -, -, -, hnodes⟩ | ⟨-, -, rfl⟩
      · exact hnodes ▸ htr
      · exact htr

/-- A key that has been given out gets no new node. -/
theorem Step.node_none (h : Inv c.base) (hs : Step c a c') (hphase : c.phase = .inTask now)
    (hend : a ≠ .taskEnd) (hp : p.second ≤ c.base.timerNum) (hnone : c.base.timerRepeats[p]? = none) :
    c'.phase = .inTask now ∧ c'.base.timerRepeats[p]? = none := by
  cases hs with
  | @runAt b _ _ _ _ _ interval _ _ hexit hrun =>
    refine ⟨hphase, ?_⟩
    have hp : p.second ≤ b.timerNum := hp
    by_cases hi : interval = 0
    · subst hi
      obtain ⟨-, -, -, -, hnodes⟩ := runAt_oneShot hrun hexit
      rw [hnodes]
      exact hnone
    · obtain ⟨q, -, -, -, hsecond, -, -, hnodes⟩ := runAt_repeating hrun hexit hi
      rw [hnodes, TimerId.getElem?_insert, if_neg (TimerId.ne_of_second (by omega))]
      exact hnone
  | runAtExited _ hexit hrun =>
    obtain ⟨rfl, -⟩ := runAt_exit hrun hexit
    exact ⟨hphase, hnone⟩
  | exit => exact ⟨hphase, hnone⟩
  | taskEnd => exact absurd rfl hend
  | handleTimeout | start | timeoutHandled | loopEnd => cases hphase
  | @cancel _ _ _ id _ _ hrun =>
    refine ⟨hphase, ?_⟩
    by_cases hid : id.first < 0
    · obtain ⟨-, -, -, -, -, hnodes⟩ := cancel_repeating hrun hid
      rw [hnodes, TimerId.getElem?_erase, hnone, ite_self]
    · rcases cancel_oneShot hrun hid with ⟨-, -, -, -, -, hnodes⟩ | ⟨-, -, rfl⟩
      · exact hnodes ▸ hnone
      · exact hnone

/-- The task cancels its own timer. -/
theorem Step.node_erased (hs : Step c a c') (hphase : c.phase = .inTask now)
    (hcancel : ¬Spared (.repeatable p) [a]) :
    c'.phase = .inTask now ∧ c'.base.timerRepeats[p]? = none := by
  obtain ⟨hfirst, result, hmem⟩ : p.first < 0 ∧ ∃ result, .cancel p result ∈ [a] := by
    simpa only [Spared, Classical.not_imp, not_forall, not_not, exists_prop] using hcancel
  obtain rfl := List.mem_singleton.mp hmem
  cases hs with
  | cancel _ hrun =>
    obtain ⟨-, -, -, -, -, hnodes⟩ := cancel_repeating hrun hfirst
    refine ⟨hphase, ?_⟩
    rw [hnodes, TimerId.getElem?_erase, if_pos rfl]

theorem spared_snoc_iff : Spared t (es ++ [a]) ↔ Spared t es ∧ Spared t [a] := by
  cases t with
  | user => exact (and_self_iff).symm
  | repeatable p =>
    simp only [Spared, List.mem_append, not_or]
    exact ⟨fun h => ⟨fun hp r => (h hp r).1, fun hp r => (h hp r).2⟩,
      fun h hp r => ⟨h.1 hp r, h.2 hp r⟩⟩

/-- The node of the running task is there, unchanged, until the task cancels its own timer. -/
theorem run_node (h : Run Step c es c') (hinv : Inv c.base) (hphase : c.phase = .inTask now)
    (hend : .taskEnd ∉ es) (htr : c.base.timerRepeats[p]? = some tr) :
    c'.phase = .inTask now ∧ Inv c'.base ∧ p.second ≤ c'.base.timerNum ∧
      (Spared (.repeatable p) es → c'.base.timerRepeats[p]? = some tr) ∧
      (¬Spared (.repeatable p) es → c'.base.timerRepeats[p]? = none) := by
  induction h with
  | nil =>
    refine ⟨hphase, hinv, (hinv.node htr).1, fun _ => htr, fun hcancel => ?_⟩
    exact absurd (fun _ _ => List.not_mem_nil) hcancel
  | @snoc es u a v hrun hs ih =>
    rw [List.mem_append, not_or, List.mem_singleton] at hend
    obtain ⟨hphase, hinv, hp, hspared, hgone⟩ := ih hend.1
    obtain ⟨hinv', hle, -⟩ := hs.refines hinv
    have hne : a ≠ .taskEnd := fun ha => hend.2 ha.symm
    rw [spared_snoc_iff]
    by_cases hes : Spared (.repeatable p) es
    · by_cases ha : Spared (.repeatable p) [a]
      · have hcancel : p.first < 0 → ∀ result, a ≠ .cancel p result := fun hfirst result heq =>
          ha hfirst result (List.mem_singleton.mpr heq.symm)
        obtain ⟨hphase', hkept⟩ := hs.node hinv hphase hne hcancel
        exact ⟨hphase', hinv', Int.le_trans hp hle, fun _ => hkept (hspared hes),
          fun h => absurd ⟨hes, ha⟩ h⟩
      · obtain ⟨hphase', hnone⟩ := hs.node_erased hphase ha
        exact ⟨hphase', hinv', Int.le_trans hp hle, fun h => absurd h.2 ha, fun _ => hnone⟩
    · obtain ⟨hphase', hnone⟩ := hs.node_none hinv hphase hne hp (hgone hes)
      exact ⟨hphase', hinv', Int.le_trans hp hle, fun h => absurd h.1 hes, fun _ => hnone⟩

/-- **The lifetime of a running task.** In every run, at every moment between the start of a timer's task
and its return, whatever the task registers and cancels, the function object is in its storage exactly
when the task has not cancelled its own timer, or the timer is one-shot. -/
theorem holds_iff (h : Run Step ({} : Config τ) es ⟨b, .testing now⟩) (hdue : b.due now = some (k, t))
    (hexpire : b.expire clock k t = some (b', id, task)) (hrest : Run Step ⟨b', .inTask now⟩ es' c')
    (hend : .taskEnd ∉ es') : (storage t).Holds c'.base task ↔ Spared t es' := by
  have hstart := h.snoc (.start hdue hexpire)
  have hinv : Inv b' := (run_inv hstart).inv
  cases t with
  | user u =>
    obtain ⟨-, rfl, -⟩ := expire_user hexpire
    exact iff_of_true rfl trivial
  | repeatable p =>
    obtain ⟨tr, tid, -, -, rfl, -, -, -, -, hnodes⟩ := expire_repeatable hexpire
    have htr : b'.timerRepeats[p]? = some ⟨tr.at + tr.interval, tr.interval, tid, tr.task⟩ := by
      rw [hnodes, TimerId.getElem?_insert, if_pos rfl]
    obtain ⟨-, -, -, hspared, hgone⟩ := run_node hrest hinv rfl hend htr
    refine ⟨fun ⟨tr', htr', _⟩ => ?_, fun hes => ⟨_, hspared hes, rfl⟩⟩
    by_contra hes
    rw [hgone hes] at htr'
    cases htr'

/-- A repeating timer that is due, its task started, and the task's call of `cancel` on it. -/
theorem run_selfCancel : ∃ (b b' : EventBase Nat) (c : Config Nat),
    Run Step {} [.runAt 5 7 3 ⟨-5, 1⟩, .handleTimeout 9] ⟨b, .testing 9⟩ ∧
    b.due 9 = some (⟨5, 2⟩, .repeatable ⟨-5, 1⟩) ∧
    b.expire 0 ⟨5, 2⟩ (.repeatable ⟨-5, 1⟩) = some (b', ⟨-5, 1⟩, 7) ∧
    Run Step ⟨b', .inTask 9⟩ [.cancel ⟨-5, 1⟩ true] c ∧
    c.base.timerRepeats[(⟨-5, 1⟩ : TimerId)]? = none := by
  have hrun : Run Step {} [.runAt 5 7 3 ⟨-5, 1⟩, .handleTimeout 9]
      ⟨(({} : EventBase Nat).runAt 0 5 7 3).1, .testing 9⟩ :=
    .cons (.runAt rfl rfl rfl) (.cons .handleTimeout .nil)
  refine ⟨_, _, _, hrun, rfl, rfl, .single (.cancel rfl (cancel_of_node (by decide) rfl)), ?_⟩
  simp

theorem holds_iff_selfCancel : ∃ (b' : EventBase Nat) (c : Config Nat),
    Run Step ⟨b', .inTask 9⟩ [.cancel ⟨-5, 1⟩ true] c ∧
      ¬(storage (.repeatable ⟨-5, 1⟩)).Holds c.base 7 := by
  obtain ⟨b, b', c, hrun, hdue, hexpire, hcancel, -⟩ := run_selfCancel
  refine ⟨b', c, hcancel, fun hholds => ?_⟩
  have hspared := (holds_iff hrun hdue hexpire hcancel (by simp)).mp hholds
  exact hspared (by decide) true (List.mem_singleton_self _)

theorem not_holds : ¬∀ (es es' : List (Action Nat)) (b b' : EventBase Nat) (c : Config Nat)
    (k id : TimerId) (t : TimerTask Nat) (task : Nat) (now clock : Int),
    Run Step {} es ⟨b, .testing now⟩ → b.due now = some (k, t) →
    b.expire clock k t = some (b', id, task) → Run Step ⟨b', .inTask now⟩ es' c → .taskEnd ∉ es' →
    (storage t).Holds c.base task := by
  intro h
  obtain ⟨b, b', c, hrun, hdue, hexpire, hcancel, hnone⟩ := run_selfCancel
  obtain ⟨tr, htr, -⟩ := h _ _ b b' c _ _ _ _ _ _ hrun hdue hexpire hcancel (by simp)
  rw [hnone] at htr
  cases htr

end NetLibrary.EventBase
