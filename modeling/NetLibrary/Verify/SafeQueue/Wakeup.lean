import NetLibrary.Verify.SafeQueue.Fifo

/-!
# The blocking queue loses no wakeup

A consumer blocks only when the queue is empty, and every accepted item notifies one blocked
consumer if there is one. So while somebody is blocked un-notified, each queued item is accounted
for by a notified consumer that has not run yet (`WakeInv.items_le`); a consumer that steals an item
only makes the queue shorter. `exit` stores its flag before it takes the lock, so every consumer
that blocks later than the store is seen by `notify_all`.
-/

namespace NetLibrary.SafeQueue
open LTS Threads

variable {α : Type} {q q' : SafeQueue α} {pcs pcs' : List Pc} {i : Nat} {a b : Pc}
  {timed timeout notified : Bool} {v : α} {r : Option α} {s s' : Sys α} {e : Event α} {es : List (Event α)}

/-! ## The sections under the mutex -/

theorem length_push (h : q.push v = (q', true)) :
    q'.items.length = q.items.length + 1 ∧ q'.exit = q.exit := by
  obtain ⟨-, -, rfl⟩ := push_true h
  exact ⟨by simp, rfl⟩

theorem length_popFront (h : q.popFront = (r, q')) :
    q'.items.length = q.items.length - 1 ∧ q'.exit = q.exit := by
  cases r with
  | none =>
    obtain ⟨hnil, rfl⟩ := popFront_none h
    exact ⟨by simp [hnil], rfl⟩
  | some v =>
    obtain ⟨hcons, hq⟩ := popFront_some h
    rw [hcons, hq]
    exact ⟨by simp, rfl⟩

/-- A consumer starts to wait only on an empty queue that has not exited. -/
theorem waitReady_some {waitMs : Int} (h : q.waitReady waitMs = some timed) :
    q.items = [] ∧ q.exit = false := by
  rw [waitReady] at h
  split at h
  · cases h
  · simp_all

/-- A consumer goes back to wait only on an empty queue that has not exited. -/
theorem waitsAgain_true (h : q.waitsAgain timed timeout = true) :
    q.items = [] ∧ q.exit = false := by
  cases timed <;> simp_all [waitsAgain]

/-! ## The wait set -/

theorem countP_notifyAll : (notifyAll pcs).countP Pc.isBlocked = 0 := by
  rw [countP_eq_zero_iff]
  intro pc hpc
  obtain ⟨pc, -, rfl⟩ := List.mem_map.mp hpc
  cases pc <;> rfl

theorem exiting_notifyAll (h : .exiting ∈ notifyAll pcs) : .exiting ∈ pcs := by
  obtain ⟨pc, hpc, heq⟩ := List.mem_map.mp h
  cases pc with
  | exiting => exact hpc
  | idle | blocked | woken => cases heq

/-- `notify_one` moves one thread from the blocked to the notified ones, unless none is blocked. -/
theorem NotifyOne.count (h : NotifyOne pcs pcs') :
    (pcs.countP Pc.isBlocked = pcs'.countP Pc.isBlocked + 1 ∧
      pcs'.countP Pc.isNotified = pcs.countP Pc.isNotified + 1) ∨
    (pcs'.countP Pc.isBlocked = 0 ∧ pcs' = pcs) := by
  cases h with
  | @wake i timed hat =>
    have hB := hat.countP_set (b := .woken timed true) (p := Pc.isBlocked)
    have hN := hat.countP_set (b := .woken timed true) (p := Pc.isNotified)
    refine .inl ⟨?_, ?_⟩
    · simpa [Pc.isBlocked] using hB.symm
    · simpa [Pc.isNotified] using hN
  | none hno => exact .inr ⟨countP_eq_zero_iff.mpr hno, rfl⟩

/-- No thread enters `exit` by a notification. -/
theorem NotifyOne.exiting (h : NotifyOne pcs pcs') (hmem : .exiting ∈ pcs') : .exiting ∈ pcs := by
  cases h with
  | wake => exact mem_of_mem_set hmem (by simp)
  | none => exact hmem

/-! ## The invariant -/

structure WakeInv (s : Sys α) : Prop where
  /-- While a thread is blocked un-notified, a notified thread stands for each queued item. -/
  items_le : 0 < s.pcs.countP Pc.isBlocked →
    s.queue.items.length ≤ s.pcs.countP Pc.isNotified
  /-- A thread is in `exit` only after its store. -/
  exiting : .exiting ∈ s.pcs → s.queue.exit = true

theorem WakeInv.init {capacity n : Nat} : WakeInv (Sys.init α capacity n) := by
  refine ⟨fun _ => Nat.zero_le _, fun h => ?_⟩
  cases List.eq_of_mem_replicate h

/-- A thread that moves without blocking leaves no more threads blocked than there were. -/
theorem blocked_set (hat : At pcs i a) (hb : b.isBlocked = false) :
    (pcs.set i b).countP Pc.isBlocked ≤ pcs.countP Pc.isBlocked := by
  have hB := hat.countP_set (b := b) (p := Pc.isBlocked)
  rw [hb, if_neg Bool.false_ne_true] at hB
  exact Nat.le_trans (Nat.le_add_right _ _) (Nat.le_of_eq hB)

/-- A thread that moves without blocking, and keeps its notification if it has one. -/
theorem WakeInv.move (h : WakeInv ⟨q, pcs⟩) (hat : At pcs i a) (hb : b.isBlocked = false)
    (hab : a.isNotified = b.isNotified) (hitems : q'.items = q.items)
    (hexit : .exiting ∈ pcs.set i b → q'.exit = true) : WakeInv ⟨q', pcs.set i b⟩ := by
  refine ⟨fun hpos => ?_, hexit⟩
  have hN := hat.countP_set (b := b) (p := Pc.isNotified)
  rw [hab] at hN
  have hold := h.items_le (Nat.lt_of_lt_of_le hpos (blocked_set hat hb))
  rw [← Nat.add_right_cancel hN] at hold
  exact hitems ▸ hold

/-- A thread that blocks finds the queue empty. -/
theorem WakeInv.block (h : WakeInv ⟨q, pcs⟩) (hq : q.items = []) :
    WakeInv ⟨q, pcs.set i (.blocked timed)⟩ := by
  refine ⟨fun _ => ?_, fun hmem => h.exiting (mem_of_mem_set hmem (by simp))⟩
  rw [hq]
  exact Nat.zero_le _

/-- A pop by a thread that holds no notification: the queue gets no longer. -/
theorem WakeInv.popNow (h : WakeInv ⟨q, pcs⟩) (hpop : q.popFront = (r, q')) :
    WakeInv ⟨q', pcs⟩ := by
  obtain ⟨hlen, hexit⟩ := length_popFront hpop
  refine ⟨fun hpos => ?_, fun hmem => ?_⟩
  · rw [hlen]
    exact Nat.le_trans (Nat.sub_le _ _) (h.items_le hpos)
  · rw [hexit]
    exact h.exiting hmem

/-- The notified thread that leaves takes one of the items with it, if there is one. -/
theorem WakeInv.popWoken (h : WakeInv ⟨q, pcs⟩) (hat : At pcs i (.woken timed notified))
    (hpop : q.popFront = (r, q')) : WakeInv ⟨q', pcs.set i .idle⟩ := by
  obtain ⟨hlen, hexit⟩ := length_popFront hpop
  refine ⟨fun hpos => ?_, fun hmem => ?_⟩
  · have hN := hat.countP_set (b := .idle) (p := Pc.isNotified)
    have hold := h.items_le (Nat.lt_of_lt_of_le hpos (blocked_set hat rfl))
    cases notified with
    | false =>
      simp only [Pc.isNotified, Bool.false_eq_true, if_false, Nat.add_zero] at hN
      rw [hlen, hN]
      exact Nat.le_trans (Nat.sub_le _ _) hold
    | true =>
      simp only [Pc.isNotified, Bool.false_eq_true, if_false, if_true, Nat.add_zero] at hN
      rw [hlen, ← Nat.add_sub_cancel (n := (pcs.set i .idle).countP Pc.isNotified) (m := 1), hN]
      exact Nat.sub_le_sub_right hold 1
  · rw [hexit]
    exact h.exiting (mem_of_mem_set hmem (by simp))

/-- An accepted item either wakes a thread or finds nobody blocked. -/
theorem WakeInv.push (h : WakeInv ⟨q, pcs⟩) (hpush : q.push v = (q', true))
    (hnotify : NotifyOne pcs pcs') : WakeInv ⟨q', pcs'⟩ := by
  obtain ⟨hlen, hexit⟩ := length_push hpush
  refine ⟨fun hpos => ?_, fun hmem => ?_⟩
  · rcases hnotify.count with ⟨hB, hN⟩ | ⟨hB, -⟩
    · rw [hlen, hN]
      exact Nat.succ_le_succ (h.items_le (hB ▸ Nat.succ_pos _))
    · rw [hB] at hpos
      cases hpos
  · rw [hexit]
    exact h.exiting (hnotify.exiting hmem)

/-- After `notify_all` in `exit` nobody is blocked. -/
theorem not_blocked_exitNotify {pc : Pc} (h : pc ∈ (notifyAll pcs).set i .idle) :
    pc.isBlocked = false := by
  rcases List.mem_or_eq_of_mem_set h with h | rfl
  · exact countP_eq_zero_iff.mp countP_notifyAll pc h
  · rfl

theorem WakeInv.step (h : WakeInv s) (hs : Step s e s') : WakeInv s' := by
  cases hs with
  | pushOk _ hpush hnotify => exact h.push hpush hnotify
  | pushFail _ hpush =>
    obtain rfl := push_false hpush
    exact h
  | popNow _ _ hpop => exact h.popNow hpop
  | block _ hwait => exact h.block (waitReady_some hwait).1
  | unblock hat =>
    exact h.move hat rfl rfl rfl fun hmem => h.exiting (mem_of_mem_set hmem (by simp))
  | blockAgain _ hwait => exact h.block (waitsAgain_true hwait).1
  | popWoken hat _ hpop => exact h.popWoken hat hpop
  | size => exact h
  | exitStore hat => exact h.move hat rfl rfl rfl fun _ => rfl
  | exitNotify =>
    refine ⟨fun hpos => ?_, fun hmem => ?_⟩
    · rw [countP_eq_zero_iff.mpr fun _ => not_blocked_exitNotify] at hpos
      cases hpos
    · exact h.exiting (exiting_notifyAll (mem_of_mem_set hmem (by simp)))

/-! ## After `exit` -/

/-- The queue has exited and nobody is blocked. -/
def Quiet (s : Sys α) : Prop := s.queue.exit = true ∧ ∀ pc ∈ s.pcs, pc.isBlocked = false

/-- A thread blocks only if the queue has not exited, so once it is quiet it remains so. -/
theorem Quiet.step (h : Quiet s) (hs : Step s e s') : Quiet s' := by
  obtain ⟨hexit, hpcs⟩ := h
  have hset : ∀ {i b}, b.isBlocked = false → ∀ pc ∈ s.pcs.set i b, pc.isBlocked = false := by
    intro i b hb pc hmem
    rcases List.mem_or_eq_of_mem_set hmem with hmem | rfl
    · exact hpcs pc hmem
    · exact hb
  cases hs with
  | pushOk _ hpush _ =>
    obtain ⟨hopen, -⟩ := push_true hpush
    cases hexit.symm.trans hopen
  | pushFail _ hpush =>
    obtain rfl := push_false hpush
    exact ⟨hexit, hpcs⟩
  | popNow _ _ hpop => exact ⟨(length_popFront hpop).2.trans hexit, hpcs⟩
  | block _ hwait => cases hexit.symm.trans (waitReady_some hwait).2
  | unblock => exact ⟨hexit, hset rfl⟩
  | blockAgain _ hwait => cases hexit.symm.trans (waitsAgain_true hwait).2
  | popWoken _ _ hpop => exact ⟨(length_popFront hpop).2.trans hexit, hset rfl⟩
  | size => exact ⟨hexit, hpcs⟩
  | exitStore => exact ⟨rfl, hset rfl⟩
  | exitNotify => exact ⟨hexit, fun _ => not_blocked_exitNotify⟩

/-- The step in which `exit` returns makes the queue quiet. -/
theorem WakeInv.quiet (h : WakeInv s) (hs : Step s .exitReturn s') : Quiet s' := by
  cases hs with
  | exitNotify hat => exact ⟨h.exiting hat.mem, fun _ => not_blocked_exitNotify⟩

theorem run_wakeInv {capacity n : Nat} (h : Run Step (Sys.init α capacity n) es s) : WakeInv s :=
  h.invariant .init .step

theorem run_quiet {capacity n : Nat} (h : Run Step (Sys.init α capacity n) es s)
    (hmem : .exitReturn ∈ es) : Quiet s := by
  induction h with
  | nil => cases hmem
  | snoc hrun hs ih =>
    rcases List.mem_append.mp hmem with hmem | hmem
    · exact (ih hmem).step hs
    · cases List.mem_singleton.mp hmem
      exact (run_wakeInv hrun).quiet hs

/-- **No wakeup is lost.** In every interleaving of any number of threads, while some consumer is
blocked and un-notified there are at most as many queued items as notified consumers that have not
run yet; and once a call of `exit` has returned nobody is blocked. -/
theorem no_lost_wakeup {capacity n : Nat} (h : Run Step (Sys.init α capacity n) es s) :
    ((∃ pc ∈ s.pcs, pc.isBlocked = true) →
      s.queue.items.length ≤ s.pcs.countP Pc.isNotified) ∧
    (.exitReturn ∈ es → ∀ pc ∈ s.pcs, pc.isBlocked = false) := by
  refine ⟨?_, fun hmem => (run_quiet h hmem).2⟩
  rintro ⟨pc, hmem, hpc⟩
  exact (run_wakeInv h).items_le (List.countP_pos_iff.mpr ⟨pc, hmem, hpc⟩)

/-- Two consumers block and an item wakes one of them. -/
theorem wake_run : Run Step (Sys.init Nat 0 3) [.internal, .internal, .push 7 true]
    ⟨⟨[7], 0, false⟩, [.woken false true, .blocked false, .idle]⟩ := by
  have hwait : waitReady (⟨[], 0, false⟩ : SafeQueue Nat) waitInfinite = some false := rfl
  have hpush : push (⟨[], 0, false⟩ : SafeQueue Nat) 7 = (⟨[7], 0, false⟩, true) := rfl
  have h₁ : Run Step (Sys.init Nat 0 3) [.internal]
      ⟨⟨[], 0, false⟩, [.blocked false, .idle, .idle]⟩ := .single (.block (i := 0) rfl hwait)
  have h₂ := h₁.snoc (.block (i := 1) rfl hwait)
  exact h₂.snoc (.pushOk (i := 2) rfl hpush (.wake (i := 0) rfl))

/-- Then `exit` wakes the other. -/
theorem exit_run : Run Step (Sys.init Nat 0 3)
    [.internal, .internal, .push 7 true, .exitStore, .exitReturn]
    ⟨⟨[7], 0, true⟩, [.woken false true, .woken false true, .idle]⟩ :=
  (wake_run.snoc (.exitStore (i := 2) rfl)).snoc (.exitNotify (i := 2) rfl)

theorem no_lost_wakeup_exit :
    [7].length ≤ [Pc.woken false true, .blocked false, .idle].countP Pc.isNotified ∧
    ∀ pc ∈ [Pc.woken false true, .woken false true, .idle], pc.isBlocked = false :=
  ⟨(no_lost_wakeup wake_run).1 ⟨.blocked false, by decide, rfl⟩,
    (no_lost_wakeup exit_run).2 (by simp)⟩

end NetLibrary.SafeQueue
