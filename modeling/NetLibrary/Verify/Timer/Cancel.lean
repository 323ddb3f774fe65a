import NetLibrary.Verify.Timer.Links

/-!
# Cancellation

`cancel` of a live timer that was registered for a positive time removes that timer and nothing
else (`cancel_exact`). On other identifiers it is not total: the sign of the first component decides
which map it looks in, it does not test the lookup in `m_timerRepeats`, and the internal key of a
repeating timer is found in `m_timers` (`cancel_total_iff`).
-/

namespace NetLibrary.EventBase
open LTS Timers

variable {τ : Type} {b b' : EventBase τ} {c c' : Config τ} {es es' : List (Action τ)}
  {id k p : TimerId} {t : TimerTask τ} {tr : TimerRepeatable τ} {result : Bool}

/-! ## What `cancel` finds -/

theorem cancel_of_node (hid : id.first < 0) (htr : b.timerRepeats[id]? = some tr) :
    b.cancel id = some ({ b with
      timers := b.timers.erase tr.tid, timerRepeats := b.timerRepeats.erase id }, true) := by
  rw [cancel, if_pos hid, htr]

theorem cancel_of_no_node (hid : id.first < 0) (htr : b.timerRepeats[id]? = none) :
    b.cancel id = none := by
  rw [cancel, if_pos hid, htr]

theorem cancel_of_timer (hid : 0 ≤ id.first) (ht : b.timers[id]? = some t) :
    b.cancel id = some ({ b with timers := b.timers.erase id }, true) := by
  have hmem : b.timers.contains id = true := by
    rw [Std.TreeMap.contains_eq_isSome_getElem?, ht]
    rfl
  rw [cancel, if_neg (Int.not_lt.mpr hid), if_pos hmem]

theorem cancel_of_no_timer (hid : 0 ≤ id.first) (ht : b.timers[id]? = none) :
    b.cancel id = some (b, false) := by
  have hmem : ¬b.timers.contains id = true := by
    rw [Std.TreeMap.contains_eq_isSome_getElem?, ht]
    exact Bool.false_ne_true
  rw [cancel, if_neg (Int.not_lt.mpr hid), if_neg hmem]

/-! ## A live timer -/

/-- The timer to which an entry of `m_timers` belongs. -/
def owner (k : TimerId) : TimerTask τ → TimerId
  | .user _ => k
  | .repeatable p => p

/-- The entries of the timer `id` are gone, and no other entry has changed. -/
structure Removed (id : TimerId) (b b' : EventBase τ) : Prop where
  timers : ∀ (k : TimerId) t, b'.timers[k]? = some t ↔ b.timers[k]? = some t ∧ owner k t ≠ id
  timerRepeats : ∀ (p : TimerId) tr,
    b'.timerRepeats[p]? = some tr ↔ b.timerRepeats[p]? = some tr ∧ p ≠ id

theorem erase_some_iff {V : Type} {m : Std.TreeMap TimerId V} {v : V} {i : TimerId} :
    (m.erase k)[i]? = some v ↔ m[i]? = some v ∧ i ≠ k := by
  rw [TimerId.getElem?_erase]
  split
  · rename_i heq
    simp [heq]
  · rename_i hne
    simp [Ne.symm hne]

theorem Inv.removed_oneShot {u : τ} (h : Inv b) (ht : b.timers[id]? = some (.user u)) :
    Removed id b { b with timers := b.timers.erase id } := by
  have hnone := h.timerRepeats_none ht
  refine ⟨fun k t => ?_, fun p tr => ⟨fun htr => ⟨htr, ?_⟩, And.left⟩⟩
  · refine erase_some_iff.trans (and_congr_right fun hk => ?_)
    cases t with
    | user => exact Iff.rfl
    | repeatable p =>
      obtain ⟨tr, htr, -⟩ := h.closure hk
      apply iff_of_true
      · rintro rfl
        rw [ht] at hk
        cases hk
      · rintro (rfl : p = id)
        rw [hnone] at htr
        cases htr
  · rintro rfl
    rw [hnone] at htr
    cases htr

theorem Inv.removed_repeating (h : Inv b) (htr : b.timerRepeats[id]? = some tr) :
    Removed id b { b with
      timers := b.timers.erase tr.tid, timerRepeats := b.timerRepeats.erase id } := by
  refine ⟨fun k t => ?_, fun p tr => erase_some_iff⟩
  refine erase_some_iff.trans (and_congr_right fun hk => ?_)
  cases t with
  | user =>
    apply iff_of_true
    · rintro rfl
      cases h.entry htr hk
    · rintro (rfl : k = id)
      rw [h.timers_none htr] at hk
      cases hk
  | repeatable p =>
    refine not_congr ⟨?_, ?_⟩
    · rintro rfl
      cases h.entry htr hk
      rfl
    · rintro (rfl : p = id)
      obtain ⟨tr', htr', hk'⟩ := h.closure hk
      rw [htr] at htr'
      cases htr'
      exact hk'.symm

/-- The sign of an identifier tells which kind of timer it is of. -/
theorem sign_of_live (h : Run Step ({} : Config τ) es c)
    (hat : ∀ waitUs task interval id, .runAt waitUs task interval id ∈ es → 0 < waitUs)
    {u : Timer τ} (hlive : liveTimer es id = some u) :
    (u.period = 0 → 0 ≤ id.first) ∧ (u.period ≠ 0 → id.first < 0) := by
  obtain ⟨⟨waitUs, interval, task⟩, hreg⟩ := issued_of_live hlive
  obtain ⟨rfl, -⟩ := ((run_inv h).lawful.onSchedule hreg).live_eq u hlive
  have hmem := runAt_mem_toEvent.mp hreg
  have hpos := hat _ _ _ _ hmem
  rw [(run_idInv h).first hmem]
  refine ⟨fun hp => ?_, fun hp => ?_⟩
  · rw [if_pos hp]
    exact Int.le_of_lt hpos
  · rw [if_neg hp]
    exact Int.neg_neg_of_pos hpos

/-- **`cancel` is effective and exact.** When all timers were registered for positive times,
`cancel` of a live timer returns true, it removes the entries of that timer and leaves all others as
they are, and no run that goes on from there starts the timer again. -/
theorem cancel_exact (h : Run Step ({} : Config τ) es c)
    (hat : ∀ waitUs task interval id, .runAt waitUs task interval id ∈ es → 0 < waitUs)
    (hturn : c.phase.userTurn = true) {u : Timer τ} (hlive : liveTimer es id = some u) :
    ∃ b', c.base.cancel id = some (b', true) ∧ Removed id c.base b' ∧
      ∀ es' c', Run Step ⟨b', c.phase⟩ es' c' →
        ∀ deadline now task, .start id deadline now task ∉ es' := by
  have hrun := run_inv h
  have hcancel : ∃ b', c.base.cancel id = some (b', true) ∧ Removed id c.base b' := by
    obtain ⟨hzero, hneg⟩ := sign_of_live h hat hlive
    rw [← hrun.live] at hlive
    rcases hrun.inv.registered_some hlive with ⟨ht, -, hp⟩ | ⟨tr, htr, -, hp⟩
    · exact ⟨_, cancel_of_timer (hzero hp) ht, hrun.inv.removed_oneShot ht⟩
    · exact ⟨_, cancel_of_node (hneg hp) htr, hrun.inv.removed_repeating htr⟩
  obtain ⟨b', hcancel, hremoved⟩ := hcancel
  refine ⟨b', hcancel, hremoved, fun es' c' hlater deadline now task hmem => ?_⟩
  have hafter : Run Step {} (es ++ [.cancel id true]) ⟨b', c.phase⟩ :=
    h.snoc (.cancel hturn hcancel)
  have hlaw := (run_inv (hafter.append hlater)).lawful
  rw [List.map_append] at hlaw
  have hissued : Issued ((es ++ [Action.cancel id true]).map Action.toEvent) id := by
    rw [List.map_append]
    exact (issued_of_live hlive).append
  have hdead : live ((es ++ [Action.cancel id true]).map Action.toEvent) id = none := by
    rw [List.map_append]
    exact live_snoc.trans (if_pos ⟨rfl, rfl⟩)
  exact (hlaw.not_started hissued hdead).2 _ _ _ (List.mem_map.mpr ⟨_, hmem, rfl⟩)

/-- A repeating timer that has been started once is cancelled in its own task. -/
theorem cancel_exact_selfCancel :
    ∃ c, Run Step ({} : Config Nat) (selfCancel.take 3) c ∧
      ∃ b', c.base.cancel ⟨-5, 1⟩ = some (b', true) ∧ Removed ⟨-5, 1⟩ c.base b' ∧
      ∀ es' c', Run Step ⟨b', c.phase⟩ es' c' →
        ∀ deadline now task, .start ⟨-5, 1⟩ deadline now task ∉ es' := by
  have hrun := run_of_act 0 (by decide : ((selfCancel.take 3).foldlM (act 0) {}).isSome = true)
  have hat : ∀ (waitUs : Int) (task : Nat) interval id,
      .runAt waitUs task interval id ∈ selfCancel.take 3 → 0 < waitUs := by
    intro waitUs task interval id hmem
    rcases List.mem_cons.mp hmem with heq | hmem
    · cases heq
      decide
    · simp at hmem
  exact ⟨_, hrun, cancel_exact hrun hat (by decide) (u := ⟨8, 3, 7⟩) rfl⟩

/-! ## All identifiers -/

/-- What is promised of `cancel id` after the actions `es`, which lead to `b`. -/
def CancelTotal (es : List (Action τ)) (b : EventBase τ) (id : TimerId) : Prop :=
  ∃ b' result, b.cancel id = some (b', result) ∧
    (result = true ↔ ∃ u, liveTimer es id = some u) ∧
    (result = true → Removed id b b') ∧
    (result = false → b'.timers = b.timers ∧ b'.timerRepeats = b.timerRepeats)

/-- The sign of the identifier leads `cancel` to the map that it is a public key of, if of any. -/
def CancelReady (b : EventBase τ) (id : TimerId) : Prop :=
  (id.first < 0 ∧ id ∈ b.timerRepeats) ∨
  (0 ≤ id.first ∧ id ∉ b.timerRepeats ∧ ∀ p, b.timers[id]? ≠ some (.repeatable p))

theorem not_mem_iff {V : Type} {m : Std.TreeMap TimerId V} : id ∉ m ↔ m[id]? = none := by
  rw [Std.TreeMap.mem_iff_isSome_getElem?, Option.not_isSome_iff_eq_none]

/-- A negative identifier that is a key of `m_timerRepeats`. -/
theorem RunInv.cancelTotal_node (h : RunInv es c) (hid : id.first < 0)
    (htr : c.base.timerRepeats[id]? = some tr) : CancelTotal es c.base id := by
  refine ⟨_, true, cancel_of_node hid htr, ?_, fun _ => h.inv.removed_repeating htr, nofun⟩
  rw [← h.live, h.inv.registered_node htr]
  exact iff_of_true rfl ⟨_, rfl⟩

/-- A positive identifier of a user's task in `m_timers`. -/
theorem RunInv.cancelTotal_timer (h : RunInv es c) (hid : 0 ≤ id.first) {u : τ}
    (ht : c.base.timers[id]? = some (.user u)) : CancelTotal es c.base id := by
  refine ⟨_, true, cancel_of_timer hid ht, ?_, fun _ => h.inv.removed_oneShot ht, nofun⟩
  rw [← h.live, registered_user ht]
  exact iff_of_true rfl ⟨_, rfl⟩

/-- A positive identifier of nothing. -/
theorem RunInv.cancelTotal_none (h : RunInv es c) (hid : 0 ≤ id.first)
    (ht : c.base.timers[id]? = none) (htr : c.base.timerRepeats[id]? = none) :
    CancelTotal es c.base id := by
  refine ⟨_, false, cancel_of_no_timer hid ht, ?_, nofun, fun _ => ⟨rfl, rfl⟩⟩
  rw [← h.live, registered_none ht htr]
  simp

theorem RunInv.cancelTotal_iff (h : RunInv es c) :
    CancelTotal es c.base id ↔ CancelReady c.base id := by
  constructor
  · rintro ⟨b', result, hcancel, hlive, -⟩
    rw [← h.live] at hlive
    cases htr : c.base.timerRepeats[id]? with
    | none =>
      refine .inr ⟨Int.not_lt.mp fun hid => ?_, not_mem_iff.mpr htr, fun p ht => ?_⟩
      · rw [cancel_of_no_node hid htr] at hcancel
        cases hcancel
      -- The key of a closure is found, and no timer is registered under it.
      · have hid : 0 ≤ id.first := Int.not_lt.mp fun hid => by
          rw [cancel_of_no_node hid htr] at hcancel
          cases hcancel
        rw [cancel_of_timer hid ht] at hcancel
        cases hcancel
        rw [h.inv.registered_closure ht] at hlive
        simp at hlive
    | some tr =>
      refine .inl ⟨Int.not_le.mp fun hid => ?_, ?_⟩
      -- The live repeating timer is looked up in `m_timers`.
      · rw [cancel_of_no_timer hid (h.inv.timers_none htr)] at hcancel
        cases hcancel
        rw [h.inv.registered_node htr] at hlive
        simp at hlive
      · rw [Std.TreeMap.mem_iff_isSome_getElem?, htr]
        rfl
  · rintro (⟨hid, hmem⟩ | ⟨hid, hmem, hclosure⟩)
    · obtain ⟨tr, htr⟩ := Option.isSome_iff_exists.mp
        (Std.TreeMap.mem_iff_isSome_getElem?.mp hmem)
      exact h.cancelTotal_node hid htr
    · cases ht : c.base.timers[id]? with
      | none => exact h.cancelTotal_none hid ht (not_mem_iff.mp hmem)
      | some t =>
        cases t with
        | user u => exact h.cancelTotal_timer hid ht
        | repeatable p => exact absurd ht (hclosure p)

/-- A second `cancel` of the same identifier. -/
theorem cancel_again (h : b.cancel id = some (b', result)) :
    b'.cancel id = some (b', false) ↔ 0 ≤ id.first := by
  constructor
  · refine fun hagain => Int.not_lt.mp fun hid => ?_
    obtain ⟨tr, -, -, -, -, hnodes⟩ := cancel_repeating h hid
    rw [cancel_of_no_node hid (by rw [hnodes, TimerId.getElem?_erase, if_pos rfl])] at hagain
    cases hagain
  · intro hid
    rcases cancel_oneShot h (Int.not_lt.mpr hid) with ⟨_, -, -, -, htimers, -⟩ | ⟨ht, -, rfl⟩
    · exact cancel_of_no_timer hid (by rw [htimers, TimerId.getElem?_erase, if_pos rfl])
    · exact cancel_of_no_timer hid ht

/-- **When `cancel` is total.** In every reachable state and for every identifier, `cancel` does
what is promised exactly when the identifier is negative and a key of `m_timerRepeats`, or not
negative, no key of `m_timerRepeats` and not the key of a closure in `m_timers`. A second `cancel`
returns false and changes nothing exactly when the identifier is not negative. -/
theorem cancel_total_iff (h : Run Step ({} : Config τ) es c) :
    (CancelTotal es c.base id ↔ CancelReady c.base id) ∧
    ∀ b' result, c.base.cancel id = some (b', result) →
      (b'.cancel id = some (b', false) ↔ 0 ≤ id.first) :=
  ⟨(run_inv h).cancelTotal_iff, fun _ _ => cancel_again⟩

theorem cancel_total_iff_selfCancel :
    ∃ c, Run Step ({} : Config Nat) (selfCancel.take 3) c ∧ CancelTotal (selfCancel.take 3) c.base ⟨-5, 1⟩ := by
  have hrun := run_of_act 0 (by decide : ((selfCancel.take 3).foldlM (act 0) {}).isSome = true)
  exact ⟨_, hrun, (cancel_total_iff hrun).1.mpr (.inl ⟨by decide, by decide⟩)⟩

/-- A repeating timer is cancelled, and its identifier is cancelled once more. -/
theorem cancel_not_total : ¬∀ (es : List (Action Nat)) (c : Config Nat) (id : TimerId),
    Run Step {} es c → CancelTotal es c.base id := by
  intro h
  have hrun := run_of_act 0 (by decide : (selfCancel.foldlM (act 0) {}).isSome = true)
  obtain ⟨b', result, hcancel, -⟩ := h _ _ ⟨-5, 1⟩ hrun
  rw [cancel_of_no_node (by decide) (by decide)] at hcancel
  cases hcancel

end NetLibrary.EventBase
