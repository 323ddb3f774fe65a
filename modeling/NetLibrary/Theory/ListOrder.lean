import Mathlib.Data.List.Lex

/-!
# The lexicographic order of lists

Lists with a common part are in the order of what follows it, and two parts of one length decide unless they
are equal.
-/

namespace ListOrder

variable {α : Type*} [LT α] {a b x y : List α}

/-- Two parts of one length decide, unless they are equal. -/
theorem append_lt_append_iff (hlen : a.length = b.length) : a ++ x < b ++ y ↔ a < b ∨ a = b ∧ x < y := by
  induction a generalizing b with
  | nil =>
    obtain rfl := List.length_eq_zero_iff.mp hlen.symm
    simp
  | cons c a ih =>
    cases b with
    | nil => cases hlen
    | cons d b =>
      rw [List.cons_append, List.cons_append, List.cons_lt_cons_iff, List.cons_lt_cons_iff, ih (Nat.succ.inj hlen),
        List.cons.injEq]
      grind

/-- Where two parts of one length differ, what follows them does not matter. -/
theorem append_lt_append_iff_of_ne (hlen : a.length = b.length) (hne : a ≠ b) : a ++ x < b ++ y ↔ a < b := by
  rw [append_lt_append_iff hlen, or_iff_left fun h => hne h.1]

theorem append_lt_append_left_iff [Std.Irrefl (· < · : α → α → Prop)] : a ++ x < a ++ y ↔ x < y := by
  rw [append_lt_append_iff rfl, or_iff_right (List.lt_irrefl a), and_iff_right rfl]

end ListOrder
