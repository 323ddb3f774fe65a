import Mathlib.Data.List.Basic

/-!
# Slots

A list of slots, each of them free or in use. A slot is named by its index, and a slot that is not in
the list is free. New slots are added at the end, so the index of a slot never changes its meaning.
-/

namespace Slots

variable {α : Type*} {l : List (Option α)} {i j : Nat} {o : Option α} {a : α}

/-- What slot `i` holds. -/
def get (l : List (Option α)) (i : Nat) : Option α := l[i]?.join

theorem get_eq_none (h : l.length ≤ i) : get l i = none := by
  rw [get, List.getElem?_eq_none h, Option.join_none]

/-- A slot in use is in the list. -/
theorem lt_of_get (h : get l i = some a) : i < l.length := by
  by_contra hge
  rw [get_eq_none (Nat.not_lt.mp hge)] at h
  cases h

theorem get_append_of_lt {l' : List (Option α)} (h : i < l.length) : get (l ++ l') i = get l i := by
  rw [get, List.getElem?_append_left h, get]

theorem get_append_of_get {l' : List (Option α)} (h : get l i = some a) : get (l ++ l') i = some a := by
  rw [get_append_of_lt (lt_of_get h), h]

@[simp] theorem get_length : get (l ++ [o]) l.length = o := by
  rw [get, List.getElem?_concat_length, Option.join_some]

theorem get_concat (h : i ≠ l.length) : get (l ++ [o]) i = get l i := by
  rcases Nat.lt_or_gt_of_ne h with hlt | hgt
  · exact get_append_of_lt hlt
  · have hlen : (l ++ [o]).length ≤ i := by rwa [List.length_append, List.length_singleton]
    rw [get_eq_none hlen, get_eq_none (Nat.le_of_lt hgt)]

theorem get_set_self (h : i < l.length) : get (l.set i o) i = o := by
  rw [get, List.getElem?_set_self h, Option.join_some]

theorem get_set_of_ne (h : j ≠ i) : get (l.set i o) j = get l j := by
  rw [get, List.getElem?_set_ne h.symm, get]

/-- What is in use after a slot has been added. -/
theorem of_get_concat (h : get (l ++ [o]) i = some a) :
    (i = l.length ∧ o = some a) ∨ get l i = some a := by
  by_cases hi : i = l.length
  · rw [hi, get_length] at h
    exact .inl ⟨hi, h⟩
  · rw [get_concat hi] at h
    exact .inr h

/-- What is in use after one slot has changed. -/
theorem of_get_set (h : get (l.set i o) j = some a) : (j = i ∧ o = some a) ∨ (j ≠ i ∧ get l j = some a) := by
  by_cases hj : j = i
  · have hlt : i < l.length := by
      have hlt := lt_of_get h
      rwa [List.length_set, hj] at hlt
    rw [hj, get_set_self hlt] at h
    exact .inl ⟨hj, h⟩
  · rw [get_set_of_ne hj] at h
    exact .inr ⟨hj, h⟩

end Slots
