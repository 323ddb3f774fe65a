import Mathlib.Data.List.Basic

/-!
# Slices of a memory block

A block is the list of its cells. `slice m b e` reads the cells from `b` up to `e`, and
`blit m i bs` overwrites the cells from `i` on with `bs`, as `memcpy` does.
-/

namespace Block

variable {α : Type*} {m bs : List α} {b e i n : Nat}

/-- The cells of `m` from index `b` up to index `e`. -/
def slice (m : List α) (b e : Nat) : List α := (m.take e).drop b

/-- `m` with the cells from index `i` on replaced by `bs`. -/
def blit (m : List α) (i : Nat) (bs : List α) : List α :=
  m.take i ++ bs ++ m.drop (i + bs.length)

theorem length_slice (h : e ≤ m.length) : (slice m b e).length = e - b := by
  simp [slice, Nat.min_eq_left h]

@[simp] theorem slice_self : slice m b b = [] := by
  simp [slice]

@[simp] theorem slice_nil : slice ([] : List α) b e = [] := by
  simp [slice]

/-- Dropping from a slice moves its start. -/
theorem slice_add : slice m (b + n) e = (slice m b e).drop n := by
  simp [slice, List.drop_drop]

/-- Two adjacent slices. -/
theorem slice_append_slice (hb : b ≤ i) (hi : i ≤ e) :
    slice m b i ++ slice m i e = slice m b e := by
  obtain ⟨n, rfl⟩ := Nat.exists_eq_add_of_le hb
  have htake : m.take (b + n) = (m.take e).take (b + n) := by
    rw [List.take_take, Nat.min_eq_left hi]
  rw [slice_add, slice, slice, htake, List.drop_take, Nat.add_sub_cancel_left,
    List.take_append_drop]

theorem length_blit (h : i + bs.length ≤ m.length) : (blit m i bs).length = m.length := by
  simp [blit]; omega

/-- A slice that ends before the overwritten cells keeps its content. -/
theorem slice_blit_of_le (h : e ≤ i) (hi : i ≤ m.length) :
    slice (blit m i bs) b e = slice m b e := by
  have hlen : e ≤ (m.take i).length := by rw [List.length_take]; omega
  rw [slice, slice, blit, List.append_assoc, List.take_append_of_le_length hlen, List.take_take,
    Nat.min_eq_left h]

/-- A slice that ends with the overwritten cells. -/
theorem slice_blit (hb : b ≤ i) (hi : i ≤ m.length) :
    slice (blit m i bs) b (i + bs.length) = slice m b i ++ bs := by
  have hlen : (m.take i ++ bs).length = i + bs.length := by simp [Nat.min_eq_left hi]
  have hdrop : b ≤ (m.take i).length := by rw [List.length_take]; omega
  rw [slice, slice, blit, List.take_append_of_le_length (Nat.le_of_eq hlen.symm), ← hlen,
    List.take_length, List.drop_append_of_le_length hdrop]

theorem slice_blit_zero : slice (blit m 0 bs) 0 bs.length = bs := by
  have h : slice (blit m 0 bs) 0 (0 + bs.length) = slice m 0 0 ++ bs :=
    slice_blit (Nat.le_refl 0) (Nat.zero_le _)
  simpa using h

/-- The cells behind a prefix are overwritten. -/
theorem blit_append {p r : List α} : blit (p ++ r) p.length bs = p ++ bs ++ r.drop bs.length := by
  rw [blit, List.take_left, List.drop_append, List.drop_of_length_le (Nat.le_add_right _ _), List.nil_append,
    Nat.add_sub_cancel_left]

end Block
