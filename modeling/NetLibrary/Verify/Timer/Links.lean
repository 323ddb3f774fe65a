import NetLibrary.Verify.Timer.Firing

/-!
# The links between the two timer maps

In every run each closure in `m_timers` has its node. The other direction, that each node has its
closure, needs users who cancel only what `runAt` returned (`CancelsReturned`): the internal key of
a repeating timer is an identifier like any other, and who cancels it leaves the node without its
closure.
-/

namespace NetLibrary.EventBase
open LTS Timers

variable {τ : Type} {b b' : EventBase τ} {c c' : Config τ} {a : Action τ} {es : List (Action τ)}
  {id k p : TimerId} {tr : TimerRepeatable τ}

/-! ## Keys and identifiers -/

/-- A closure is under its old key or under a new one, which `runAt` does not return. -/
theorem Step.closure (h : Inv c.base) (hs : Step c a c')
    (ht : c'.base.timers[k]? = some (.repeatable p)) :
    c.base.timers[k]? = some (.repeatable p) ∨
      c.base.timerNum < k.second ∧ ∀ waitUs task interval, a ≠ .runAt waitUs task interval k := by
  cases hs with
  | @runAt b b' ph clock waitUs task interval id _ hexit hrun =>
    by_cases hi : interval = 0
    · subst hi
      obtain ⟨-, hsecond, -, htimers, -⟩ := runAt_oneShot hrun hexit
      simp only at ht ⊢
      rw [htimers, TimerId.getElem?_insertIfNew (h.timers_fresh (by simp only; omega))] at ht
      split at ht
      · cases ht
      · exact .inl ht
    · obtain ⟨p', -, hp', -, hsecond, -, htimers, -⟩ := runAt_repeating hrun hexit hi
      simp only at ht ⊢
      rw [htimers] at ht
      rcases insert_some ht with ⟨rfl, -⟩ | ⟨-, ht⟩
      · refine .inr ⟨by omega, fun _ _ _ heq => ?_⟩
        cases heq
        omega
      · exact .inl ht
  | runAtExited _ hexit hrun =>
    obtain ⟨rfl, -⟩ := runAt_exit hrun hexit
    exact .inl ht
  | @cancel _ _ _ id _ _ hcancel =>
    simp only at ht ⊢
    by_cases hid : id.first < 0
    · obtain ⟨tr, -, -, -, htimers, -⟩ := cancel_repeating hcancel hid
      rw [htimers] at ht
      exact .inl (erase_some ht).2
    · rcases cancel_oneShot hcancel hid with ⟨_, -, -, -, htimers, -⟩ | ⟨-, -, rfl⟩
      · rw [htimers] at ht
        exact .inl (erase_some ht).2
      · exact .inl ht
  | @start _ _ _ _ k' t _ _ _ hexpire =>
    simp only at ht ⊢
    cases t with
    | user u =>
      obtain ⟨-, -, -, htimers, -⟩ := expire_user hexpire
      rw [htimers] at ht
      exact .inl (erase_some ht).2
    | repeatable q =>
      obtain ⟨tr, tid, -, -, -, -, hsecond, -, htimers, -⟩ := expire_repeatable hexpire
      rw [htimers] at ht
      rcases insert_some ht with ⟨rfl, -⟩ | ⟨-, ht⟩
      · exact .inr ⟨by omega, fun _ _ _ heq => by cases heq⟩
      · exact .inl (erase_some ht).2
  | exit | handleTimeout | taskEnd => exact .inl ht
  | timeoutHandled =>
    rw [refreshNearest_timers] at ht
    exact .inl ht
  | loopEnd => simp at ht

/-- What the identifiers that `runAt` returned look like, and which keys they are not. -/
structure IdInv (es : List (Action τ)) (c : Config τ) : Prop where
  num_nonneg : 0 ≤ c.base.timerNum
  first : ∀ {waitUs task interval id}, .runAt waitUs task interval id ∈ es →
    id.first = if interval = 0 then waitUs else -waitUs
  exited : ∀ {waitUs task interval id}, .runAtExited waitUs task interval id ∈ es → id = {}
  unissued : ∀ {k p : TimerId}, c.base.timers[k]? = some (.repeatable p) →
    0 < k.second ∧ ∀ waitUs task interval, .runAt waitUs task interval k ∉ es

theorem IdInv.init : IdInv [] ({} : Config τ) where
  num_nonneg := Int.le_refl 0
  first hmem := by cases hmem
  exited hmem := by cases hmem
  unissued ht := by simp at ht

theorem IdInv.step (h : IdInv es c) (hrun : RunInv es c) (hs : Step c a c') :
    IdInv (es ++ [a]) c' := by
  obtain ⟨-, hle, -⟩ := hs.refines hrun.inv
  constructor
  case num_nonneg => exact Int.le_trans h.num_nonneg hle
  case first =>
    intro waitUs task interval id hmem
    rcases List.mem_append.mp hmem with hmem | hmem
    · exact h.first hmem
    · cases List.mem_singleton.mp hmem
      cases hs with
      | runAt _ hexit hrun =>
        split
        · rename_i hi
          subst hi
          exact (runAt_oneShot hrun hexit).1
        · rename_i hi
          obtain ⟨-, -, -, hfirst, -⟩ := runAt_repeating hrun hexit hi
          exact hfirst
  case exited =>
    intro waitUs task interval id hmem
    rcases List.mem_append.mp hmem with hmem | hmem
    · exact h.exited hmem
    · cases List.mem_singleton.mp hmem
      cases hs with
      | runAtExited _ hexit hrun => exact (runAt_exit hrun hexit).2
  case unissued =>
    intro k p ht
    rcases hs.closure hrun.inv ht with hold | ⟨hlt, hne⟩
    · obtain ⟨hpos, hno⟩ := h.unissued hold
      refine ⟨hpos, fun waitUs task interval hmem => ?_⟩
      rcases List.mem_append.mp hmem with hmem | hmem
      · exact hno _ _ _ hmem
      · cases List.mem_singleton.mp hmem
        cases hs with
        | runAt _ hexit hrunAt =>
          obtain ⟨-, hlt, -⟩ := hrun.inv.runAt hrunAt hexit
          exact absurd (hrun.inv.key_le hold) (Int.not_le.mpr hlt)
    · refine ⟨Int.lt_of_le_of_lt h.num_nonneg hlt, fun waitUs task interval hmem => ?_⟩
      rcases List.mem_append.mp hmem with hmem | hmem
      · exact absurd (hrun.issued ⟨_, runAt_mem_toEvent.mpr hmem⟩) (Int.not_le.mpr hlt)
      · exact hne _ _ _ (List.mem_singleton.mp hmem).symm

theorem run_idInv (h : Run Step ({} : Config τ) es c) : IdInv es c := by
  induction h with
  | nil => exact .init
  | snoc hrun hs ih => exact ih.step (run_inv hrun) hs

/-! ## What registrations keep -/

/-- All entries of both maps are still there, with the values they had. -/
def Keeps (b b' : EventBase τ) : Prop :=
  (∀ (k : TimerId) t, b.timers[k]? = some t → b'.timers[k]? = some t) ∧
    ∀ (p : TimerId) tr, b.timerRepeats[p]? = some tr → b'.timerRepeats[p]? = some tr

/-- A registration uses new keys. -/
theorem Inv.runAt_keeps {clock waitUs interval : Int} {task : τ} (h : Inv b)
    (hrun : b.runAt clock waitUs task interval = (b', id)) : Keeps b b' := by
  cases hexit : b.exit with
  | true =>
    obtain ⟨rfl, -⟩ := runAt_exit hrun hexit
    exact ⟨fun _ _ ht => ht, fun _ _ htr => htr⟩
  | false =>
    by_cases hi : interval = 0
    · subst hi
      obtain ⟨-, hsecond, -, htimers, hnodes⟩ := runAt_oneShot hrun hexit
      refine ⟨fun k t ht => ?_, fun p tr htr => by rw [hnodes, htr]⟩
      have hle := h.key_le ht
      rw [htimers, TimerId.getElem?_insertIfNew (h.timers_fresh (by omega)), if_neg, ht]
      exact TimerId.ne_of_second (by omega)
    · obtain ⟨q, -, hq, -, hsecond, -, htimers, hnodes⟩ := runAt_repeating hrun hexit hi
      refine ⟨fun k t ht => ?_, fun p tr htr => ?_⟩
      · have hle := h.key_le ht
        rw [htimers, TimerId.getElem?_insert, if_neg, ht]
        exact TimerId.ne_of_second (by omega)
      · have hle := (h.node htr).1
        rw [hnodes, TimerId.getElem?_insert, if_neg, htr]
        exact TimerId.ne_of_second (by omega)

/-- An expiry that takes out the entry at `k` re-registers a repeating timer under a new key. -/
theorem Inv.expire_keeps {clock : Int} {t : TimerTask τ} {task : τ} (h : Inv b)
    (hexpire : b.expire clock k t = some (b', id, task)) {k' : TimerId} {t' : TimerTask τ}
    (hne : k ≠ k') (ht' : b.timers[k']? = some t') : b'.timers[k']? = some t' := by
  cases t with
  | user u =>
    obtain ⟨-, -, -, htimers, -⟩ := expire_user hexpire
    rw [htimers, TimerId.getElem?_erase, if_neg hne, ht']
  | repeatable p =>
    obtain ⟨-, tid, -, -, -, -, hsecond, -, htimers, -⟩ := expire_repeatable hexpire
    have hle := h.key_le ht'
    rw [htimers, TimerId.getElem?_insert, if_neg (TimerId.ne_of_second (by omega)),
      TimerId.getElem?_erase, if_neg hne, ht']

/-! ## Nodes and closures -/

/-- Users cancel only identifiers that `runAt` returned. -/
def CancelsReturned (es : List (Action τ)) : Action τ → Prop
  | .cancel id _ => ∃ waitUs task interval,
    .runAt waitUs task interval id ∈ es ∨ .runAtExited waitUs task interval id ∈ es
  | _ => True

/-- Every node has its closure. -/
def Linked (b : EventBase τ) : Prop := ∀ (p : TimerId) tr, b.timerRepeats[p]? = some tr →
  b.timers[tr.tid]? = some (.repeatable p)

/-- An identifier that `runAt` returned is not the key of a closure. -/
theorem IdInv.not_closure (h : IdInv es c) {result : Bool}
    (hid : CancelsReturned es (.cancel id result)) :
    c.base.timers[id]? ≠ some (.repeatable p) := by
  intro ht
  obtain ⟨hpos, hno⟩ := h.unissued ht
  obtain ⟨waitUs, task, interval, hmem | hmem⟩ := hid
  · exact hno _ _ _ hmem
  · rw [h.exited hmem] at hpos
    cases hpos

theorem Linked.runAt {clock waitUs interval : Int} {task : τ} (h : Linked b) (hinv : Inv b)
    (hexit : b.exit = false) (hrun : b.runAt clock waitUs task interval = (b', id)) :
    Linked b' := by
  intro p tr htr
  obtain ⟨hkeeps, -⟩ := hinv.runAt_keeps hrun
  by_cases hi : interval = 0
  · subst hi
    obtain ⟨-, -, -, -, hnodes⟩ := runAt_oneShot hrun hexit
    rw [hnodes] at htr
    exact hkeeps _ _ (h _ _ htr)
  · obtain ⟨q, -, -, -, -, -, htimers, hnodes⟩ := runAt_repeating hrun hexit hi
    rw [hnodes] at htr
    rcases insert_some htr with ⟨rfl, rfl⟩ | ⟨-, htr⟩
    · rw [htimers, TimerId.getElem?_insert, if_pos rfl]
    · exact hkeeps _ _ (h _ _ htr)

theorem Linked.cancel {result : Bool} (h : Linked b)
    (hid : ∀ p, b.timers[id]? ≠ some (.repeatable p)) (hcancel : b.cancel id = some (b', result)) :
    Linked b' := by
  intro p tr htr
  by_cases hneg : id.first < 0
  · obtain ⟨tr', htr', -, -, htimers, hnodes⟩ := cancel_repeating hcancel hneg
    rw [hnodes] at htr
    obtain ⟨hne, htr⟩ := erase_some htr
    rw [htimers, TimerId.getElem?_erase, if_neg, h _ _ htr]
    -- Two nodes do not share a closure.
    intro heq
    have hclosure := h _ _ htr'
    rw [heq, h _ _ htr] at hclosure
    cases hclosure
    exact hne rfl
  · rcases cancel_oneShot hcancel hneg with ⟨_, -, -, -, htimers, hnodes⟩ | ⟨-, -, rfl⟩
    · rw [hnodes] at htr
      rw [htimers, TimerId.getElem?_erase, if_neg, h _ _ htr]
      rintro rfl
      exact hid p (h _ _ htr)
    · exact h _ _ htr

theorem Linked.expire {clock : Int} {t : TimerTask τ} {task : τ} (h : Linked b) (hinv : Inv b)
    (ht : b.timers[k]? = some t) (hexpire : b.expire clock k t = some (b', id, task)) :
    Linked b' := by
  intro p tr htr
  cases t with
  | user u =>
    obtain ⟨-, -, -, -, hnodes⟩ := expire_user hexpire
    rw [hnodes] at htr
    apply hinv.expire_keeps hexpire ?_ (h _ _ htr)
    rintro rfl
    rw [h _ _ htr] at ht
    cases ht
  | repeatable q =>
    obtain ⟨tr', tid, htr', -, -, -, -, -, htimers, hnodes⟩ := expire_repeatable hexpire
    rw [hnodes] at htr
    rcases insert_some htr with ⟨rfl, rfl⟩ | ⟨hne, htr⟩
    · rw [htimers, TimerId.getElem?_insert, if_pos rfl]
    · apply hinv.expire_keeps hexpire ?_ (h _ _ htr)
      rintro rfl
      rw [h _ _ htr] at ht
      cases ht
      exact hne rfl

theorem Linked.step (h : Linked c.base) (hinv : Inv c.base) (hid : IdInv es c)
    (hok : CancelsReturned es a) (hs : Step c a c') : Linked c'.base := by
  cases hs with
  | runAt _ hexit hrun => exact h.runAt hinv hexit hrun
  | runAtExited _ hexit hrun =>
    obtain ⟨rfl, -⟩ := runAt_exit hrun hexit
    exact h
  | cancel _ hcancel => exact h.cancel (fun _ => hid.not_closure hok) hcancel
  | start hdue hexpire => exact h.expire hinv (due_some hdue).1 hexpire
  | exit | handleTimeout | taskEnd => exact h
  | timeoutHandled =>
    intro p tr htr
    rw [refreshNearest_timerRepeats] at htr
    rw [refreshNearest_timers]
    exact h _ _ htr
  | loopEnd =>
    intro p tr htr
    simp at htr

theorem run_linked (h : Run Step ({} : Config τ) es c)
    (huse : Admissible CancelsReturned es) : Linked c.base := by
  induction h with
  | nil =>
    intro p tr htr
    simp at htr
  | snoc hrun hs ih =>
    obtain ⟨hprev, hok⟩ := admissible_snoc_iff.mp huse
    exact (ih hprev).step (run_inv hrun).inv (run_idInv hrun) hok hs

/-! ## The invariant of the timer table -/

/-- The two maps of an event loop at any moment at which no timer function runs. -/
structure TableOk (b : EventBase τ) : Prop where
  /-- Every node has exactly one closure, at the key that it stores. -/
  closure_iff : ∀ {p : TimerId} {tr}, b.timerRepeats[p]? = some tr →
    ∀ k : TimerId, b.timers[k]? = some (.repeatable p) ↔ k = tr.tid
  /-- The pointer of every closure is valid. -/
  node : ∀ {k p : TimerId}, b.timers[k]? = some (.repeatable p) →
    ∃ tr, b.timerRepeats[p]? = some tr
  timers_le : ∀ {k : TimerId} {t}, b.timers[k]? = some t → k.second ≤ b.timerNum
  timerRepeats_le : ∀ {p : TimerId} {tr}, b.timerRepeats[p]? = some tr → p.second ≤ b.timerNum

theorem Linked.tableOk (h : Linked b) (hinv : Inv b) : TableOk b where
  closure_iff {p tr} htr k := by
    constructor
    · intro ht
      obtain ⟨tr', htr', hk⟩ := hinv.closure ht
      rw [htr] at htr'
      cases htr'
      exact hk.symm
    · rintro rfl
      exact h p tr htr
  node ht := (hinv.closure ht).imp fun _ => And.left
  timers_le := hinv.key_le
  timerRepeats_le htr := (hinv.node htr).1

/-- **The invariant of the timer table.** In every run in which the users cancel only what `runAt`
returned, the two maps are linked one to one at every start and end of a task and between all
operations, no key has a sequence number that was not drawn, and neither a registration nor the
re-registration of a repeating timer overwrites an entry. -/
theorem timer_table (h : Run Step ({} : Config τ) es c) (huse : Admissible CancelsReturned es) :
    TableOk c.base ∧
    (∀ clock waitUs task interval b' id,
      c.base.runAt clock waitUs task interval = (b', id) → Keeps c.base b') ∧
    ∀ clock k t b' id task, c.base.expire clock k t = some (b', id, task) →
      ∀ (k' : TimerId) t', k ≠ k' → c.base.timers[k']? = some t' → b'.timers[k']? = some t' := by
  have hinv := (run_inv h).inv
  refine ⟨(run_linked h huse).tableOk hinv, fun _ _ _ _ _ _ => hinv.runAt_keeps, ?_⟩
  intro clock k t b' id task hexpire k' t' hne ht'
  exact hinv.expire_keeps hexpire hne ht'

/-- A repeating timer cancels itself in its own task. -/
def selfCancel : List (Action Nat) :=
  [.runAt 5 7 3 ⟨-5, 1⟩, .handleTimeout 9, .start ⟨-5, 1⟩ 5 9 7, .cancel ⟨-5, 1⟩ true]

theorem selfCancel_returned : Admissible CancelsReturned selfCancel := by
  have h₁ : Admissible CancelsReturned (selfCancel.take 1) := Admissible.nil.snoc trivial
  have h₂ : Admissible CancelsReturned (selfCancel.take 2) := h₁.snoc trivial
  have h₃ : Admissible CancelsReturned (selfCancel.take 3) := h₂.snoc trivial
  have hreturned : CancelsReturned (selfCancel.take 3) (.cancel ⟨-5, 1⟩ true) :=
    ⟨5, 7, 3, .inl (by simp [selfCancel])⟩
  exact h₃.snoc hreturned

theorem timer_table_selfCancel : ∃ c, Run Step {} selfCancel c ∧ TableOk c.base := by
  have hrun := run_of_act 0 (by decide : (selfCancel.foldlM (act 0) {}).isSome = true)
  exact ⟨_, hrun, (timer_table hrun selfCancel_returned).1⟩

end NetLibrary.EventBase
