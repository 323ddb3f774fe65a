import Mathlib.Algebra.BigOperators.Group.Finset.Piecewise
import NetLibrary.Theory.Run

/-!
# Amortised cost

What the steps of a run cost together (`spent`), and the potential method: where every step pays its cost from
what it is charged and from the potential it releases, a run that starts without potential costs no more than it
is charged (`Run.spent_le`). The potential of a family of objects is the sum of theirs.
-/

namespace LTS
open Function

section

variable {σ ε : Type*} {f : σ → ε → Option σ} {cost charge : σ → ε → Nat} {s t : σ} {e : ε} {es : List ε}

/-- What the events cost together, each in the state that the events before it lead to. -/
def spent (f : σ → ε → Option σ) (cost : σ → ε → Nat) : σ → List ε → Nat
  | _, [] => 0
  | s, e :: es => cost s e + (f s e).elim 0 fun t => spent f cost t es

theorem spent_cons (h : f s e = some t) : spent f cost s (e :: es) = cost s e + spent f cost t es := by
  rw [spent, h]
  rfl

/-- A step costs at most its charge and the potential that it releases. -/
def Pays (Φ : σ → Nat) (cost charge : σ → ε → Nat) (s : σ) (e : ε) (t : σ) : Prop :=
  Φ t + cost s e ≤ Φ s + charge s e

/-- The potential method. -/
theorem Run.spent_le {I : σ → Prop} (Φ : σ → Nat) (h : Run (ofFun f) s es t) (h₀ : I s)
    (hstep : ∀ {s e t}, I s → f s e = some t → I t ∧ Pays Φ cost charge s e t) :
    Φ t + spent f cost s es ≤ Φ s + spent f charge s es := by
  induction es generalizing s with
  | nil =>
    obtain rfl := run_nil_iff.mp h
    exact Nat.le_refl _
  | cons e es ih =>
    obtain ⟨u, hs, hrest⟩ := run_cons_iff.mp h
    obtain ⟨hI, hpays⟩ := hstep h₀ hs
    have hrest := ih hrest hI
    have hfirst : Φ u + cost s e ≤ Φ s + charge s e := hpays
    rw [spent_cons hs, spent_cons hs]
    omega

end

/-! ## Families of objects -/

variable {ι β : Type*} [Fintype ι] [DecidableEq ι] {Φ : β → Nat} {s : ι → β} {i j : ι} {x y : β} {c d : Nat}

theorem sum_update (Φ : β → Nat) (s : ι → β) (i : ι) (x : β) :
    ∑ k, Φ (update s i x k) + Φ (s i) = ∑ k, Φ (s k) + Φ x := by
  have hcomp : ∀ k, Φ (update s i x k) = update (fun k => Φ (s k)) i (Φ x) k := apply_update (fun _ => Φ) s i x
  rw [Finset.sum_congr rfl fun k _ => hcomp k, Finset.sum_update_of_mem (Finset.mem_univ i),
    ← Finset.add_sum_erase _ (fun k => Φ (s k)) (Finset.mem_univ i), Finset.sdiff_singleton_eq_erase]
  omega

/-- A change of one object that pays. -/
theorem sum_update_le (h : Φ x + c ≤ Φ (s i) + d) : ∑ k, Φ (update s i x k) + c ≤ ∑ k, Φ (s k) + d := by
  have hsum := sum_update Φ s i x
  omega

/-- A change of two objects that pays. -/
theorem sum_update_update_le (hij : i ≠ j) (h : Φ x + Φ y + c ≤ Φ (s i) + Φ (s j) + d) :
    ∑ k, Φ (update (update s i x) j y k) + c ≤ ∑ k, Φ (s k) + d := by
  have hfirst := sum_update Φ s i x
  have hsecond := sum_update Φ (update s i x) j y
  rw [update_of_ne hij.symm] at hsecond
  omega

end LTS
