import NetLibrary.Verify.Timer.Table

/-!
# The timers are started on schedule

`Step.refines` maps every step of the loop thread to an event of `Timers`, and `run_lawful` says
that the history of a run is lawful: the discipline of the starts (`firing`) is a statement about
lawful histories. No run is excluded: the users register what they like, before and after `exit`,
and cancel what they like as long as `cancel` is defined.
-/

namespace NetLibrary.EventBase
open LTS Timers

variable {τ : Type} {b b' : EventBase τ} {c c' : Config τ} {a : Action τ} {es es' : List (Action τ)}
  {id : TimerId}

/-- What an action means to the timers. -/
def Action.toEvent : Action τ → Event TimerId τ
  | .runAt waitUs task interval id => .register id ⟨waitUs, interval, task⟩
  | .cancel id result => .cancel id result
  | .start id deadline now task => .start id deadline now task
  | .loopEnd => .clear
  | .runAtExited .. | .exit | .handleTimeout _ | .taskEnd | .timeoutHandled => .other

/-- The timer that is live under `id` after the actions `es`. -/
def liveTimer (es : List (Action τ)) (id : TimerId) : Option (Timer τ) :=
  live (es.map Action.toEvent) id

/-- Every step keeps the invariant and changes the registered timers as its event says. -/
theorem Step.refines (h : Inv c.base) (hs : Step c a c') :
    Inv c'.base ∧ c.base.timerNum ≤ c'.base.timerNum ∧
      ∀ i, registered c'.base i = update i (registered c.base i) a.toEvent := by
  cases hs with
  | runAt _ hexit hrun =>
    obtain ⟨hinv, hlt, hle, hregistered⟩ := h.runAt hrun hexit
    exact ⟨hinv, Int.le_trans (Int.le_of_lt hlt) hle, hregistered⟩
  | runAtExited _ hexit hrun =>
    obtain ⟨rfl, -⟩ := runAt_exit hrun hexit
    exact ⟨h, Int.le_refl _, fun _ => rfl⟩
  | cancel _ hcancel =>
    obtain ⟨hinv, hnum, hregistered⟩ := h.cancel hcancel
    exact ⟨hinv, Int.le_of_eq hnum.symm, hregistered⟩
  | exit =>
    refine ⟨(h.same ?_ ?_ ?_).1, Int.le_refl _, fun _ => rfl⟩ <;> rfl
  | handleTimeout => exact ⟨h, Int.le_refl _, fun _ => rfl⟩
  | start hdue hexpire =>
    obtain ⟨hinv, hle, -, hregistered⟩ := h.expire (due_some hdue).1 hexpire
    exact ⟨hinv, hle, hregistered⟩
  | taskEnd => exact ⟨h, Int.le_refl _, fun _ => rfl⟩
  | timeoutHandled =>
    obtain ⟨hinv, hregistered⟩ := h.same refreshNearest_timerNum refreshNearest_timers
      refreshNearest_timerRepeats
    exact ⟨hinv, Int.le_of_eq refreshNearest_timerNum.symm, hregistered⟩
  | loopEnd =>
    refine ⟨h.shrink rfl ?_ ?_ ?_, Int.le_refl _, fun i => ?_⟩
    · intro k t ht
      simp at ht
    · intro p tr htr
      simp at htr
    · intro k p tr ht
      simp at ht
    · apply registered_none <;> simp

/-- What relates a run to the history of its timers. -/
structure RunInv (es : List (Action τ)) (c : Config τ) : Prop where
  inv : Inv c.base
  issued : ∀ {id}, Issued (es.map Action.toEvent) id → id.second ≤ c.base.timerNum
  live : ∀ id, registered c.base id = liveTimer es id
  lawful : Lawful (es.map Action.toEvent)

theorem RunInv.init : RunInv [] ({} : Config τ) where
  inv := .init
  issued h := by
    obtain ⟨_, hmem⟩ := h
    cases hmem
  live id := registered_none (by simp) (by simp)
  lawful := .nil

/-- What a step does is what a timer service may do. -/
theorem RunInv.legal (h : RunInv es c) (hs : Step c a c') :
    Legal (es.map Action.toEvent) a.toEvent := by
  cases hs with
  | runAt _ hexit hrun =>
    obtain ⟨-, hlt, -⟩ := h.inv.runAt hrun hexit
    exact .register fun hissued => absurd (h.issued hissued) (Int.not_le.mpr hlt)
  | cancel => exact .cancel
  | start hdue hexpire =>
    obtain ⟨ht, hle⟩ := due_some hdue
    obtain ⟨-, -, ⟨u, hu, hdeadline, rfl⟩, -⟩ := h.inv.expire ht hexpire
    rw [h.live] at hu
    rw [← hdeadline] at hle
    simpa only [Action.toEvent, hdeadline] using Legal.start hu hle
  | loopEnd => exact .clear
  | runAtExited | exit | handleTimeout | taskEnd | timeoutHandled => exact .other

theorem RunInv.step (h : RunInv es c) (hs : Step c a c') : RunInv (es ++ [a]) c' := by
  obtain ⟨hinv, hle, hregistered⟩ := hs.refines h.inv
  refine ⟨hinv, fun {id} hissued => ?_, fun id => ?_, ?_⟩
  · rw [List.map_append] at hissued
    rcases issued_snoc hissued with hissued | ⟨t, ha⟩
    · exact Int.le_trans (h.issued hissued) hle
    · cases hs with
      | runAt _ hexit hrun =>
        obtain ⟨-, -, hid, -⟩ := h.inv.runAt hrun hexit
        cases ha
        exact hid
      | _ => cases ha
  · rw [hregistered, h.live, liveTimer, liveTimer, List.map_append]
    exact live_snoc.symm
  · rw [List.map_append]
    exact .snoc h.lawful (h.legal hs)

theorem run_inv (h : Run Step ({} : Config τ) es c) : RunInv es c := by
  induction h with
  | nil => exact .init
  | snoc _ hs ih => exact ih.step hs

/-- The deadlines of the starts of the timer `id`. -/
def startsOf (id : TimerId) (es : List (Action τ)) : List Int :=
  es.filterMap fun
    | .start i deadline _ _ => if i = id then some deadline else none
    | _ => none

theorem starts_toEvent : starts id (es.map Action.toEvent) = startsOf id es := by
  rw [starts, List.filterMap_map, startsOf]
  congr 1
  funext a
  cases a <;> rfl

theorem runAt_mem_toEvent {waitUs interval : Int} {task : τ} :
    .register id ⟨waitUs, interval, task⟩ ∈ es.map Action.toEvent ↔
      .runAt waitUs task interval id ∈ es := by
  rw [List.mem_map]
  constructor
  · rintro ⟨a, ha, heq⟩
    cases a with
    | runAt =>
      cases heq
      exact ha
    | _ => cases heq
  · exact fun hmem => ⟨_, hmem, rfl⟩

/-- **The firing discipline.** In every run, whatever the clock samples are, a timer that was
registered for the time `at` is started for the deadlines `at`, `at + interval`,
`at + 2 * interval` and so on, in this order, none of them left out or repeated, and at most once if
it is one-shot. Every start is of a registered task, in a `handleTimeout` that sampled a time not
before the deadline. -/
theorem firing (h : Run Step ({} : Config τ) es c) :
    (∀ (waitUs : Int) task (interval : Int) id, .runAt waitUs task interval id ∈ es →
      startsOf id es = (List.range (startsOf id es).length).map
        (fun (k : Nat) => waitUs + (k : Int) * interval) ∧
      (interval = 0 → (startsOf id es).length ≤ 1)) ∧
    ∀ id (deadline now : Int) task, .start id deadline now task ∈ es →
      deadline ≤ now ∧ ∃ waitUs interval, .runAt waitUs task interval id ∈ es := by
  have hlaw := (run_inv h).lawful
  refine ⟨fun waitUs task interval id hreg => ?_, fun id deadline now task hstart => ?_⟩
  · have hsched := hlaw.onSchedule (runAt_mem_toEvent.mpr hreg)
    rw [← starts_toEvent]
    exact ⟨hsched.starts_eq, hsched.once⟩
  · obtain ⟨hle, t, hreg, rfl⟩ := hlaw.start_of_mem (List.mem_map.mpr ⟨_, hstart, rfl⟩)
    exact ⟨hle, _, _, runAt_mem_toEvent.mp hreg⟩

/-! ## Runs by evaluation -/

theorem act_step [DecidableEq τ] {clock : Int} (h : act clock c a = some c') : Step c a c' := by
  obtain ⟨b, ph⟩ := c
  cases a with
  | runAt waitUs task interval id =>
    obtain ⟨⟨hturn, hexit, hid⟩, ⟨⟩⟩ := Option.ite_none_right_eq_some.mp h
    exact .runAt hturn hexit (Prod.ext rfl hid)
  | runAtExited waitUs task interval id =>
    obtain ⟨⟨hturn, hexit, hid⟩, ⟨⟩⟩ := Option.ite_none_right_eq_some.mp h
    exact .runAtExited hturn hexit (Prod.ext rfl hid)
  | cancel id result =>
    rw [act] at h
    split at h
    · rename_i hcancel
      obtain ⟨⟨hturn, rfl⟩, ⟨⟩⟩ := Option.ite_none_right_eq_some.mp h
      exact .cancel hturn hcancel
    · cases h
  | exit =>
    cases h
    exact .exit
  | handleTimeout now =>
    cases ph with
    | idle =>
      cases h
      exact .handleTimeout
    | testing | inTask => cases h
  | start id deadline now task =>
    cases ph with
    | testing sampled =>
      rw [act] at h
      split at h
      · rename_i hdue
        split at h
        · rename_i hexpire
          obtain ⟨⟨rfl, rfl, rfl, rfl⟩, ⟨⟩⟩ := Option.ite_none_right_eq_some.mp h
          exact .start hdue hexpire
        · cases h
      · cases h
    | idle | inTask => cases h
  | taskEnd =>
    cases ph with
    | inTask now =>
      cases h
      exact .taskEnd
    | idle | testing => cases h
  | timeoutHandled =>
    cases ph with
    | testing now =>
      obtain ⟨hdue, ⟨⟩⟩ := Option.ite_none_right_eq_some.mp h
      exact .timeoutHandled hdue
    | idle | inTask => cases h
  | loopEnd =>
    cases ph with
    | idle =>
      obtain ⟨hexit, ⟨⟩⟩ := Option.ite_none_right_eq_some.mp h
      exact .loopEnd hexit
    | testing | inTask => cases h

theorem run_of_act [DecidableEq τ] (clock : Int) (h : (es.foldlM (act clock) c).isSome = true) :
    Run Step c es ((es.foldlM (act clock) c).get h) :=
  (run_ofFun_iff.mpr (Option.some_get h).symm).mono act_step

/-- A repeating timer whose first two deadlines have passed, and a one-shot timer. -/
def ticks : List (Action Nat) :=
  [.runAt 5 7 3 ⟨-5, 1⟩, .runAt 6 8 0 ⟨6, 3⟩, .handleTimeout 9, .start ⟨-5, 1⟩ 5 9 7, .taskEnd,
    .start ⟨6, 3⟩ 6 9 8, .taskEnd, .start ⟨-5, 1⟩ 8 9 7, .taskEnd, .timeoutHandled]

theorem firing_ticks :
    startsOf ⟨-5, 1⟩ ticks = (List.range (startsOf ⟨-5, 1⟩ ticks).length).map
      (fun (k : Nat) => 5 + (k : Int) * 3) ∧
    (startsOf ⟨6, 3⟩ ticks).length ≤ 1 ∧ (8 : Int) ≤ 9 := by
  have hfiring := firing (run_of_act 0 (by decide : (ticks.foldlM (act 0) {}).isSome = true))
  exact ⟨(hfiring.1 5 7 3 ⟨-5, 1⟩ (by decide)).1, (hfiring.1 6 8 0 ⟨6, 3⟩ (by decide)).2 rfl,
    (hfiring.2 ⟨-5, 1⟩ 8 9 7 (by decide)).1⟩

end NetLibrary.EventBase
