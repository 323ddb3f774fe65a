import NetLibrary.Verify.SafeQueue.Wakeup

/-!
# The wait of a timed pop

The loop of `wait_ready` goes on as long as `wait_until` reports the timeout, and leaves after any other
wakeup. So the number of its rounds is right only where the first one already finds an item or the exit
flag (`waitReadyRun_iff`).
-/

namespace NetLibrary.SafeQueue

variable {α : Type} {q : SafeQueue α} {o : Outcome α} {os : List (Outcome α)} {waitMs : Int}

namespace Outcome

/-- There is an item, or `exit` was called. -/
def ready (o : Outcome α) : Bool := o.queue.exit || !o.queue.items.isEmpty

/-- The wait is over. -/
def ends (o : Outcome α) : Bool := o.timeout || o.ready

theorem ends_of_ready (h : o.ready = true) : o.ends = true := by rw [ends, h, Bool.or_true]

theorem waitsAgain_of_ready (h : o.ready = true) (timed : Bool) :
    o.queue.waitsAgain timed o.timeout = false := by
  have hpred : (o.queue.exit || !o.queue.items.isEmpty) = true := h
  cases timed with
  | false => rw [waitsAgain, if_neg Bool.false_ne_true, hpred, Bool.not_true]
  | true =>
    rw [waitsAgain, if_pos rfl]
    cases hexit : o.queue.exit with
    | true => simp
    | false =>
      rw [hexit, Bool.false_or, Bool.not_eq_true'] at hpred
      simp [hpred]

theorem waitsAgain_of_not_ready (h : o.ready = false) :
    o.queue.waitsAgain true o.timeout = o.timeout := by
  rw [ready] at h
  simp_all [waitsAgain]

end Outcome

/-- An empty queue without the exit flag, and a wait that is finite. -/
theorem waitReady_timed (hempty : q.items = []) (hexit : q.exit = false) (hpos : 0 < waitMs)
    (hfinite : waitMs ≠ waitInfinite) : q.waitReady waitMs = some true := by
  rw [waitReady, if_neg (by simp [hempty, hexit]), if_neg hfinite, if_pos hpos]

/-- `wait_ready` returns after the first outcome with which the wait is over. -/
def WaitsExactly (q : SafeQueue α) (waitMs : Int) (os : List (Outcome α)) : Prop :=
  q.waitReadyRun waitMs os = (os.findIdx? Outcome.ends).map (· + 1)

theorem waitLoop_ne_zero {timed : Bool} : waitLoop timed os ≠ some 0 := by
  cases os with
  | nil => nofun
  | cons o os =>
    rw [waitLoop]
    split
    · cases waitLoop timed os <;> simp
    · simp

theorem waitLoop_iff : waitLoop true os = (os.findIdx? Outcome.ends).map (· + 1) ↔
    ∀ o, os.head? = some o → o.ready = true := by
  cases os with
  | nil => simp [waitLoop]
  | cons o os =>
    rw [waitLoop, List.findIdx?_cons]
    cases hready : o.ready with
    | true => simp [Outcome.ends_of_ready hready, o.waitsAgain_of_ready hready, hready]
    | false =>
      rw [Outcome.waitsAgain_of_not_ready hready, Outcome.ends, hready, Bool.or_false]
      cases o.timeout with
      | true =>
        -- The wait is over, and the loop goes on.
        simp [hready, waitLoop_ne_zero]
      | false =>
        -- The wait is not over, and the loop ends.
        cases os.findIdx? Outcome.ends <;> simp [hready]

/-- **When a timed pop waits as long as it should.** On an empty queue, with a finite wait, it does
exactly when the first outcome, if there is one, comes with an item or the exit flag. -/
theorem waitReadyRun_iff (hempty : q.items = []) (hexit : q.exit = false) (hpos : 0 < waitMs)
    (hfinite : waitMs ≠ waitInfinite) :
    WaitsExactly q waitMs os ↔ ∀ o, os.head? = some o → o.ready = true := by
  rw [WaitsExactly, waitReadyRun, waitReady_timed hempty hexit hpos hfinite]
  exact waitLoop_iff

/-- A push arrives while the thread waits. -/
theorem waitReadyRun_iff_push : WaitsExactly (⟨[], 0, false⟩ : SafeQueue Nat) 50 [⟨false, ⟨[7], 0, false⟩⟩] := by
  refine (waitReadyRun_iff rfl rfl (by decide) (by decide)).mpr fun o ho => ?_
  cases ho
  rfl

/-- A spurious wakeup, and then a timeout. -/
theorem not_waitsExactly : ¬∀ (q : SafeQueue Nat) (waitMs : Int) (os : List (Outcome Nat)), q.items = [] →
    q.exit = false → 0 < waitMs → waitMs ≠ waitInfinite → WaitsExactly q waitMs os := by
  intro h
  have hexact : some 1 = some 2 := h ⟨[], 0, false⟩ 50
    [⟨false, ⟨[], 0, false⟩⟩, ⟨true, ⟨[], 0, false⟩⟩] rfl rfl (by decide) (by decide)
  cases hexact

/-! ## The result of a timed pop -/

/-- A pop that waits as long as it should returns without an item only when the time is over or after
`exit`. -/
theorem WaitsExactly.of_popWait_none (h : WaitsExactly q waitMs os)
    (hpop : q.popWait waitMs os = some none) : ∃ o ∈ os, o.timeout = true ∨ o.queue.exit = true := by
  rw [popWait, h] at hpop
  cases hfind : os.findIdx? Outcome.ends with
  | none => simp [hfind] at hpop
  | some n =>
    obtain ⟨hlt, hover, -⟩ := List.findIdx?_eq_some_iff_getElem.mp hfind
    refine ⟨os[n], List.getElem_mem hlt, ?_⟩
    have hnone : os[n].queue.popFront.1 = none := by simpa [hfind, hlt] using hpop
    obtain ⟨hitems, -⟩ := popFront_none (Prod.ext hnone rfl)
    simpa [Outcome.ends, Outcome.ready, hitems] using hover

/-- It returns once the time is over. -/
theorem WaitsExactly.popWait_ne_none (h : WaitsExactly q waitMs os) (ho : o ∈ os)
    (htimeout : o.timeout = true) : q.popWait waitMs os ≠ none := by
  intro hpop
  rw [popWait, h, Option.map_eq_none_iff, Option.map_eq_none_iff] at hpop
  have hover := List.findIdx?_eq_none_iff.mp hpop o ho
  rw [Outcome.ends, htimeout] at hover
  cases hover

end NetLibrary.SafeQueue
