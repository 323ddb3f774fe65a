import Mathlib.Data.List.Basic

/-!
# Spans of a memory

A memory gives every address the cell there. `read mem b e` reads the cells from address `b` up to
address `e`; `scan` and `scanBack` move an address over the cells that pass a test, forwards and
backwards, as a cursor is moved in a loop.
-/

namespace Span

variable {α : Type*} {mem : Nat → α} {p : α → Bool} {b e i n a : Nat} {x : α}

/-- The cells from address `b` up to address `e`. -/
def read (mem : Nat → α) (b e : Nat) : List α := (List.range' b (e - b)).map mem

@[simp] theorem length_read : (read mem b e).length = e - b := by
  rw [read, List.length_map, List.length_range']

@[simp] theorem read_self : read mem b b = [] := by
  rw [read, Nat.sub_self, List.range'_zero, List.map_nil]

theorem read_append_read (hb : b ≤ i) (hi : i ≤ e) : read mem b i ++ read mem i e = read mem b e := by
  have hrange : List.range' b (i - b) ++ List.range' i (e - i) = List.range' b (e - b) := by
    have hlen : i - b + (e - i) = e - b := by omega
    have hstart : b + (i - b) = i := by omega
    rw [← hlen, ← List.range'_append_1, hstart]
  rw [read, read, read, ← List.map_append, hrange]

theorem read_succ (hb : b ≤ e) : read mem b (e + 1) = read mem b e ++ [mem e] := by
  rw [← read_append_read hb (Nat.le_succ e)]
  simp [read]

theorem not_mem_read_succ (hb : b ≤ e) (hx : x ∉ read mem b e) (he : mem e ≠ x) : x ∉ read mem b (e + 1) := by
  rw [read_succ hb, List.mem_append, List.mem_singleton, not_or]
  exact ⟨hx, he.symm⟩

theorem read_cons (hb : b < e) : read mem b e = mem b :: read mem (b + 1) e := by
  rw [← read_append_read (Nat.le_succ b) hb, read_succ (Nat.le_refl b), read_self, List.nil_append,
    List.singleton_append]

/-- `while (b < e && p(*b)) ++b`, with `n = e - b`. -/
def scan (p : α → Bool) (mem : Nat → α) : Nat → Nat → Nat
  | 0, b => b
  | n + 1, b => if p (mem b) then scan p mem n (b + 1) else b

/-- `while (b < e && p(e[-1])) --e`, with `n = e - b`. -/
def scanBack (p : α → Bool) (mem : Nat → α) : Nat → Nat → Nat
  | 0, e => e
  | n + 1, e => if p (mem (e - 1)) then scanBack p mem n (e - 1) else e

theorem le_scan : b ≤ scan p mem n b := by
  induction n generalizing b with
  | zero => exact Nat.le_refl b
  | succ n ih =>
    rw [scan]
    split
    · exact Nat.le_of_succ_le ih
    · exact Nat.le_refl b

theorem scan_le : scan p mem n b ≤ b + n := by
  induction n generalizing b with
  | zero => exact Nat.le_refl b
  | succ n ih =>
    rw [scan]
    split
    · exact Nat.le_trans ih (by omega)
    · omega

/-- The cells that were passed. -/
theorem of_lt_scan (hb : b ≤ a) (ha : a < scan p mem n b) : p (mem a) = true := by
  induction n generalizing b with
  | zero => exact absurd ha (Nat.not_lt.mpr hb)
  | succ n ih =>
    rw [scan] at ha
    split at ha
    case isTrue h =>
      rcases Nat.eq_or_lt_of_le hb with rfl | hlt
      · exact h
      · exact ih hlt ha
    case isFalse => exact absurd ha (Nat.not_lt.mpr hb)

/-- The cell that ended the scan. -/
theorem scan_stop (h : scan p mem n b < b + n) : p (mem (scan p mem n b)) = false := by
  induction n generalizing b with
  | zero => exact absurd h (Nat.lt_irrefl b)
  | succ n ih =>
    rw [scan] at h ⊢
    split at h
    case isTrue hp =>
      rw [if_pos hp]
      exact ih (by omega)
    case isFalse hp =>
      rw [if_neg hp]
      exact Bool.eq_false_iff.mpr hp

theorem scanBack_le : scanBack p mem n e ≤ e := by
  induction n generalizing e with
  | zero => exact Nat.le_refl e
  | succ n ih =>
    rw [scanBack]
    split
    · exact Nat.le_trans ih (Nat.sub_le e 1)
    · exact Nat.le_refl e

theorem le_scanBack (h : n ≤ e) : e - n ≤ scanBack p mem n e := by
  induction n generalizing e with
  | zero => exact Nat.le_refl e
  | succ n ih =>
    rw [scanBack]
    split
    · have hle := ih (e := e - 1) (by omega)
      omega
    · exact Nat.sub_le e (n + 1)

/-- The cells that were passed backwards. -/
theorem of_scanBack_le (hn : n ≤ e) (hb : scanBack p mem n e ≤ a) (ha : a < e) : p (mem a) = true := by
  induction n generalizing e with
  | zero => exact absurd ha (Nat.not_lt.mpr hb)
  | succ n ih =>
    rw [scanBack] at hb
    split at hb
    case isTrue h =>
      rcases Nat.eq_or_lt_of_le (Nat.le_sub_one_of_lt ha) with rfl | hlt
      · exact h
      · exact ih (by omega) hb hlt
    case isFalse => exact absurd ha (Nat.not_lt.mpr hb)

/-- The cell that ended the backward scan. -/
theorem scanBack_stop (hn : n ≤ e) (h : e - n < scanBack p mem n e) :
    p (mem (scanBack p mem n e - 1)) = false := by
  induction n generalizing e with
  | zero => exact absurd h (Nat.lt_irrefl e)
  | succ n ih =>
    rw [scanBack] at h ⊢
    split at h
    case isTrue hp =>
      rw [if_pos hp]
      exact ih (by omega) (by omega)
    case isFalse hp =>
      rw [if_neg hp]
      exact Bool.eq_false_iff.mpr hp

end Span
