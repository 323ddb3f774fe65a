import Mathlib.Data.List.Perm.Basic

/-!
# Threads of an interleaving system

The threads of a system are a list of their local states. A step of thread `i` is `List.set`, and a
statement about how many threads are in some kind of state is a statement about `List.countP`.
-/

namespace Threads

variable {σ : Type*} {ths : List σ} {i : Nat} {a b c : σ} {p : σ → Bool}

/-- Thread `i` is in the local state `a`. -/
def At (ths : List σ) (i : Nat) (a : σ) : Prop := ths[i]? = some a

theorem At.mem (h : At ths i a) : a ∈ ths := List.mem_of_getElem? h

theorem At.mem_set (h : At ths i a) : b ∈ ths.set i b :=
  List.mem_set (List.getElem?_eq_some_iff.mp h).1 b

theorem At.set (h : At ths i a) : At (ths.set i b) i b :=
  List.getElem?_set_self (List.getElem?_eq_some_iff.mp h).1

/-- Thread `i` goes to `b` and comes back. -/
theorem At.set_back (h : At ths i a) : (ths.set i b).set i a = ths := by
  obtain ⟨hi, rfl⟩ := List.getElem?_eq_some_iff.mp h
  rw [List.set_set]
  exact List.set_getElem_self hi

/-- After a step of thread `i` to `b`, the other threads are where they were. -/
theorem At.of_set {j : Nat} (h : At (ths.set i b) j c) : (j = i ∧ c = b) ∨ (j ≠ i ∧ At ths j c) := by
  rw [At, List.getElem?_set] at h
  split at h
  · rename_i hij
    split at h
    · exact .inl ⟨hij.symm, (Option.some.inj h).symm⟩
    · cases h
  · rename_i hij
    exact .inr ⟨Ne.symm hij, h⟩

/-- What another state than the one that changes says remains. -/
theorem At.mem_set_of_ne (h : At ths i a) (hc : c ∈ ths) (hne : c ≠ a) : c ∈ ths.set i b := by
  obtain ⟨j, hj⟩ := List.mem_iff_getElem?.mp hc
  have hij : i ≠ j := by
    rintro rfl
    exact hne (Option.some.inj (hj.symm.trans h))
  exact List.mem_of_getElem? (List.getElem?_set_ne hij ▸ hj)

/-- One step of thread `i` from `a` to `b` changes a count by what `p` says of `a` and `b`. -/
theorem At.countP_set (h : At ths i a) :
    (ths.set i b).countP p + (if p a then 1 else 0) = ths.countP p + (if p b then 1 else 0) := by
  obtain ⟨hi, rfl⟩ := List.getElem?_eq_some_iff.mp h
  have hle : (if p ths[i] then 1 else 0) ≤ ths.countP p := List.boole_getElem_le_countP hi
  rw [List.countP_set hi]
  omega

/-- A state that is not new was there before the step. -/
theorem mem_of_mem_set (h : c ∈ ths.set i b) (hc : c ≠ b) : c ∈ ths :=
  (List.mem_or_eq_of_mem_set h).resolve_right hc

theorem countP_eq_zero_iff : ths.countP p = 0 ↔ ∀ a ∈ ths, p a = false := by
  simp [List.countP_eq_zero]

/-- At most one thread is in a state of some kind if any two that are in one are the same thread. -/
theorem countP_le_one (h : ∀ {i j a b}, At ths i a → At ths j b → p a = true → p b = true → i = j) :
    ths.countP p ≤ 1 := by
  induction ths with
  | nil => exact Nat.zero_le 1
  | cons c ths ih =>
    have hshift : ∀ {i a}, At ths i a → At (c :: ths) (i + 1) a := fun hi => hi
    rw [List.countP_cons]
    by_cases hc : p c = true
    · have hnone : ths.countP p = 0 := by
        refine countP_eq_zero_iff.mpr fun a ha => Bool.not_eq_true _ ▸ fun hpa => ?_
        obtain ⟨j, hj⟩ := List.mem_iff_getElem?.mp ha
        exact Nat.succ_ne_zero j (h (hshift hj) (show At (c :: ths) 0 c from rfl) hpa hc)
      have hone : ths.countP p + (if p c = true then 1 else 0) = 1 := by rw [hnone, if_pos hc]
      exact Nat.le_of_eq hone
    · rw [if_neg hc]
      exact ih fun hi hj ha hb => Nat.succ.inj (h (hshift hi) (hshift hj) ha hb)

/-- The threads after a step are those before it with `b` in place of `a`. -/
theorem At.perm_set (h : At ths i a) : (b :: ths).Perm (a :: ths.set i b) := by
  obtain ⟨hi, rfl⟩ := List.getElem?_eq_some_iff.mp h
  calc b :: ths
    _ |>.Perm (b :: ths[i] :: ths.eraseIdx i) := (List.getElem_cons_eraseIdx_perm hi).symm.cons b
    _ |>.Perm (ths[i] :: b :: ths.eraseIdx i) := .swap ..
    _ |>.Perm (ths[i] :: ths.set i b) := (List.set_perm_cons_eraseIdx hi b).symm.cons _

/-- The sum of a measure over all threads. -/
def total (f : σ → Nat) : List σ → Nat
  | [] => 0
  | a :: ths => f a + total f ths

/-- A sum over all threads changes by what `f` says of `a` and `b`. -/
theorem At.total_set {f : σ → Nat} (h : At ths i a) : total f (ths.set i b) + f a = total f ths + f b := by
  induction ths generalizing i with
  | nil => cases h
  | cons c ths ih =>
    cases i with
    | zero =>
      obtain rfl : c = a := Option.some.inj h
      show f b + total f ths + f c = f c + total f ths + f b
      omega
    | succ i =>
      have hrest : total f (ths.set i b) + f a = total f ths + f b := ih h
      show f c + total f (ths.set i b) + f a = f c + total f ths + f b
      omega

/-- A thread that moves from `a` to `b` gives away what `f` reads off `a` for what it reads off `b`. -/
theorem At.filterMap_set {β : Type*} {f : σ → Option β} {x y : Option β} (h : At ths i a)
    (hx : x = f b) (hy : y = f a) :
    (x.toList ++ ths.filterMap f).Perm (y.toList ++ (ths.set i b).filterMap f) := by
  have hf : ∀ c l, (c :: l).filterMap f = (f c).toList ++ l.filterMap f := by
    intro c l
    cases hc : f c with
    | none => exact List.filterMap_cons_none hc
    | some v => exact List.filterMap_cons_some hc
  rw [hx, hy, ← hf, ← hf]
  exact h.perm_set.filterMap f

end Threads
