import NetLibrary.Theory.Run

/-!
# Bounded queues that can be closed

The specification of a blocking queue as its callers see it: an event puts an item in or is turned
away, takes the oldest item out or finds none, closes the queue, or leaves it alone. `cap` is the
capacity, `0` for none. The history of a run determines what the queue holds (`conserved`).
`empties_iff` says when a queue to which new items come as others go is empty in the end.
-/

namespace Fifo
open LTS

structure State (α : Type*) where
  items : List α := []
  closed : Bool := false

inductive Event (α : Type*)
  | put (v : α) (accepted : Bool)
  | take (r : Option α)
  | close
  | other

inductive Step (cap : Nat) : State α → Event α → State α → Prop
  | put : s.closed = false → (cap = 0 ∨ s.items.length < cap) →
    Step cap s (.put v true) { s with items := s.items ++ [v] }
  | full : Step cap s (.put v false) s
  | take : s.items = v :: rest → Step cap s (.take (some v)) { s with items := rest }
  | empty : Step cap s (.take none) s
  | close : Step cap s .close { s with closed := true }
  | other : Step cap s .other s

/-- The items that were put in, in this order. -/
def accepted (es : List (Event α)) : List α :=
  es.filterMap fun
    | .put v true => some v
    | _ => none

/-- The items that were taken out, in this order. -/
def taken (es : List (Event α)) : List α :=
  es.filterMap fun
    | .take r => r
    | _ => none

variable {α : Type*} {cap : Nat} {s t : State α} {es : List (Event α)} {e : Event α}

@[simp] theorem accepted_append (es es' : List (Event α)) :
    accepted (es ++ es') = accepted es ++ accepted es' := List.filterMap_append

@[simp] theorem taken_append (es es' : List (Event α)) :
    taken (es ++ es') = taken es ++ taken es' := List.filterMap_append

/-- A step moves its item between the history and the queue. -/
theorem Step.conserved (h : Step cap s e t) :
    s.items ++ accepted [e] = taken [e] ++ t.items := by
  cases h <;> simp_all [accepted, taken]

/-- Items leave in the order in which they came in, and none is lost or doubled. -/
theorem run_conserved (h : Run (Step cap) s es t) : s.items ++ accepted es = taken es ++ t.items := by
  induction h with
  | nil => exact List.append_nil _
  | snoc _ hs ih =>
    rw [accepted_append, taken_append, ← List.append_assoc, ih, List.append_assoc, hs.conserved,
      List.append_assoc]

/-- The same for a queue that was empty at first. -/
theorem conserved (h : Run (Step cap) {} es s) : accepted es = taken es ++ s.items :=
  run_conserved h

theorem Step.length_le (h : Step cap s e t) (hcap : 0 < cap) (hs : s.items.length ≤ cap) :
    t.items.length ≤ cap := by
  cases h with
  | put _ hroom =>
    rw [List.length_append, List.length_singleton]
    omega
  | take hitems =>
    rw [hitems, List.length_cons] at hs
    exact Nat.le_of_succ_le hs
  | full | empty | close | other => exact hs

theorem length_le_cap (h : Run (Step cap) {} es s) (hcap : 0 < cap) : s.items.length ≤ cap :=
  h.invariant (I := fun s => s.items.length ≤ cap) (Nat.zero_le _) fun hs hstep =>
    hstep.length_le hcap hs

/-- A queue stays closed. -/
theorem Step.closed (h : Step cap s e t) (hs : s.closed = true ∨ e = .close) :
    t.closed = true := by
  cases h <;> simp_all

theorem closed_of_mem (h : Run (Step cap) s es t) (hmem : .close ∈ es) : t.closed = true := by
  induction h with
  | nil => cases hmem
  | snoc _ hs ih =>
    rcases List.mem_append.mp hmem with hmem | hmem
    · exact hs.closed (.inl (ih hmem))
    · exact hs.closed (.inr (List.mem_singleton.mp hmem).symm)

/-- Once a queue has been closed, nothing more is put in. -/
theorem not_close_before_put {l₁ l₂ : List (Event α)} {v : α}
    (h : Run (Step cap) s (l₁ ++ .put v true :: l₂) t) : .close ∉ l₁ := by
  induction l₂ using List.reverseRecOn generalizing t with
  | nil =>
    obtain ⟨u, hrun, hstep⟩ := run_snoc_iff.mp h
    intro hmem
    have hclosed := closed_of_mem hrun hmem
    cases hstep with
    | put hopen => rw [hclosed] at hopen; cases hopen
  | append_singleton l₂ e ih =>
    rw [← List.cons_append, ← List.append_assoc] at h
    obtain ⟨u, hrun, -⟩ := run_snoc_iff.mp h
    exact ih hrun

/-! ## Emptying a queue that is refilled

Items are taken out one at a time, and the `i`-th that goes is replaced by `p i` new ones, as far as
there is room.
-/

/-- How many items there are after `p` more have come. -/
def fill (cap k p : Nat) : Nat := if cap = 0 then k + p else min cap (k + p)

/-- A queue of `k` items is empty in the end, if the next item that goes is the `i`-th. -/
inductive Empties (cap : Nat) (p : Nat → Nat) : Nat → Nat → Prop
  | done : Empties cap p i 0
  | next : Empties cap p (i + 1) (fill cap k (p i)) → Empties cap p i (k + 1)

/-- How many items come for the `n` that go from the `i`-th on. -/
def refill (p : Nat → Nat) (i : Nat) : Nat → Nat
  | 0 => 0
  | n + 1 => p i + refill p (i + 1) n

/-- No more items come than go: for the `k` items that are there and a number of others, or, counted
from a moment when the queue was full, for its capacity. -/
def Dwindles (cap : Nat) (p : Nat → Nat) (i k : Nat) : Prop :=
  (∃ n, k + refill p i n ≤ n) ∨ cap ≠ 0 ∧ ∃ m n, cap + refill p (i + m) n ≤ n

variable {p : Nat → Nat} {i j k n : Nat}

theorem fill_le (hcap : cap ≠ 0) : fill cap k j ≤ cap := by
  rw [fill, if_neg hcap]
  exact Nat.min_le_left _ _

theorem fill_le_add : fill cap k j ≤ k + j := by
  unfold fill
  split
  · exact Nat.le_refl _
  · exact Nat.min_le_right _ _

theorem fill_eq (h : fill cap k j ≠ k + j) : cap ≠ 0 ∧ fill cap k j = cap := by
  unfold fill at h ⊢
  split at h
  · exact absurd rfl h
  · rename_i hcap
    rw [if_neg hcap]
    exact ⟨hcap, by omega⟩

theorem fill_zero (hk : cap ≠ 0 → k ≤ cap) : fill cap k 0 = k := by
  unfold fill
  split
  · rfl
  · exact Nat.min_eq_right (hk ‹_›)

theorem fill_fill : fill cap (fill cap k i) j = fill cap k (i + j) := by
  unfold fill
  split
  · exact Nat.add_assoc _ _ _
  · omega

/-- Either nothing was turned away when the first item was replaced, or the queue was full then. -/
theorem Dwindles.prev (h : Dwindles cap p (i + 1) (fill cap k (p i))) : Dwindles cap p i (k + 1) := by
  rcases h with ⟨n, hn⟩ | ⟨hcap, m, n, hn⟩
  · by_cases hfill : fill cap k (p i) = k + p i
    · rw [hfill] at hn
      refine .inl ⟨n + 1, ?_⟩
      rw [refill]
      omega
    · obtain ⟨hcap, hfull⟩ := fill_eq hfill
      rw [hfull] at hn
      exact .inr ⟨hcap, 1, n, hn⟩
  · rw [Nat.add_right_comm, Nat.add_assoc] at hn
    exact .inr ⟨hcap, m + 1, n, hn⟩

theorem Empties.dwindles (h : Empties cap p i k) : Dwindles cap p i k := by
  induction h with
  | done => exact .inl ⟨0, Nat.le_refl _⟩
  | next _ ih => exact ih.prev

theorem empties_of_refill_le (h : k + refill p i n ≤ n) : Empties cap p i k := by
  induction n generalizing i k with
  | zero =>
    obtain rfl : k = 0 := by omega
    exact .done
  | succ n ih =>
    cases k with
    | zero => exact .done
    | succ k =>
      rw [refill] at h
      apply Empties.next
      apply ih
      have hle : fill cap k (p i) ≤ k + p i := fill_le_add
      omega

theorem empties_of_full {m : Nat} (hcap : cap ≠ 0) (hk : k ≤ cap)
    (h : cap + refill p (i + m) n ≤ n) : Empties cap p i k := by
  induction m generalizing i k with
  | zero =>
    apply empties_of_refill_le (n := n)
    rw [Nat.add_zero] at h
    omega
  | succ m ih =>
    cases k with
    | zero => exact .done
    | succ k =>
      apply Empties.next
      apply ih (fill_le hcap)
      rw [Nat.add_right_comm, Nat.add_assoc]
      exact h

theorem empties_iff (hk : cap ≠ 0 → k ≤ cap) : Empties cap p i k ↔ Dwindles cap p i k := by
  refine ⟨Empties.dwindles, fun h => ?_⟩
  rcases h with ⟨n, hn⟩ | ⟨hcap, m, n, hn⟩
  · exact empties_of_refill_le hn
  · exact empties_of_full hcap (hk hcap) hn

end Fifo
