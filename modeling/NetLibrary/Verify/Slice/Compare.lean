import NetLibrary.Model.Slice
import NetLibrary.Theory.ListOrder

/-!
# Slices are compared lexicographically

`compare` compares the common length first and breaks a tie by the length. Its sign is that of the
lexicographic order of the bytes, in which a proper prefix is the smaller one, and the order laws are
those of that order.
-/

namespace NetLibrary.Slice

open ListOrder Span

theorem nil_lt_iff {x : Bytes} : [] < x ↔ x ≠ [] := by
  cases x with
  | nil => simp
  | cons c x => simp

variable {mem : Nat → UInt8} {memcmp : Memcmp} {a b c : Slice}

@[simp] theorem length_toString : (a.toString mem).length = a.size := length_read

/-- The first `n` bytes of a slice. -/
theorem read_eq_take {n : Nat} (hn : n ≤ a.size) : read mem a.pb (a.pb + n) = (a.toString mem).take n := by
  have hle : a.pb + n ≤ a.pe := by
    have := a.le
    simp only [size] at hn
    omega
  have hlen : (read mem a.pb (a.pb + n)).length = n := by simp
  rw [toString, ← read_append_read (Nat.le_add_right a.pb n) hle]
  exact (List.take_left' hlen).symm

/-- What `compare` returns, in the bytes of the two slices. -/
theorem compare_eq : compare mem memcmp a b =
    let n := min a.size b.size
    let r := memcmp.run ((a.toString mem).take n) ((b.toString mem).take n)
    if r = 0 then if a.size > b.size then 1 else if a.size < b.size then -1 else 0 else r := by
  have hmin : (if a.size > b.size then b.size else a.size) = min a.size b.size := by
    split <;> omega
  simp only [compare, hmin, read_eq_take (Nat.min_le_left a.size b.size),
    read_eq_take (Nat.min_le_right a.size b.size)]
  split
  case isTrue h => rw [h]
  case isFalse => rfl

theorem length_take_min : ((a.toString mem).take (min a.size b.size)).length =
    ((b.toString mem).take (min a.size b.size)).length := by
  simp

/-- The order of two slices whose common lengths differ is that of the common lengths. -/
theorem lt_of_take_ne (h : (a.toString mem).take (min a.size b.size) ≠ (b.toString mem).take (min a.size b.size)) :
    a.toString mem < b.toString mem ↔
      (a.toString mem).take (min a.size b.size) < (b.toString mem).take (min a.size b.size) := by
  conv_lhs => rw [← List.take_append_drop (min a.size b.size) (a.toString mem),
    ← List.take_append_drop (min a.size b.size) (b.toString mem)]
  exact append_lt_append_iff_of_ne length_take_min h

/-- The order of two slices that agree on the common length is that of their sizes. -/
theorem lt_of_take_eq (h : (a.toString mem).take (min a.size b.size) = (b.toString mem).take (min a.size b.size)) :
    a.toString mem < b.toString mem ↔ a.size < b.size := by
  conv_lhs => rw [← List.take_append_drop (min a.size b.size) (a.toString mem),
    ← List.take_append_drop (min a.size b.size) (b.toString mem), h]
  rw [append_lt_append_left_iff]
  rcases Nat.lt_or_ge a.size b.size with hlt | hge
  · have ha : (a.toString mem).drop (min a.size b.size) = [] := by
      rw [List.drop_eq_nil_iff, length_toString]
      omega
    have hb : (b.toString mem).drop (min a.size b.size) ≠ [] := by
      rw [Ne, List.drop_eq_nil_iff, length_toString]
      omega
    rw [ha, nil_lt_iff]
    exact iff_of_true hb hlt
  · have hb : (b.toString mem).drop (min a.size b.size) = [] := by
      rw [List.drop_eq_nil_iff, length_toString]
      omega
    rw [hb]
    exact iff_of_false (List.not_lt_nil _) (Nat.not_lt.mpr hge)

theorem compare_neg_iff : compare mem memcmp a b < 0 ↔ a.toString mem < b.toString mem := by
  rw [compare_eq]
  dsimp only
  split
  case isTrue h =>
    rw [memcmp.eq_zero_iff length_take_min] at h
    rw [lt_of_take_eq h]
    split
    · omega
    · split <;> omega
  case isFalse h =>
    rw [memcmp.eq_zero_iff length_take_min] at h
    rw [memcmp.neg_iff length_take_min, lt_of_take_ne h]

theorem compare_eq_zero_iff : compare mem memcmp a b = 0 ↔ a.toString mem = b.toString mem := by
  have hcommon : a.toString mem = b.toString mem →
      (a.toString mem).take (min a.size b.size) = (b.toString mem).take (min a.size b.size) := by
    intro h
    rw [h]
  rw [compare_eq]
  dsimp only
  split
  case isTrue h =>
    rw [memcmp.eq_zero_iff length_take_min] at h
    have hsize : a.toString mem = b.toString mem ↔ a.size = b.size := by
      constructor
      · intro heq
        have hlen := congrArg List.length heq
        rwa [length_toString, length_toString] at hlen
      · intro heq
        rwa [heq, Nat.min_self, List.take_of_length_le (by simp [heq]), List.take_of_length_le (by simp)] at h
    rw [hsize]
    split
    · omega
    · split <;> omega
  case isFalse h =>
    refine iff_of_false h fun heq => h ?_
    rw [memcmp.eq_zero_iff length_take_min]
    exact hcommon heq

theorem compare_pos_iff : 0 < compare mem memcmp a b ↔ b.toString mem < a.toString mem := by
  have hneg : compare mem memcmp a b < 0 ↔ a.toString mem < b.toString mem := compare_neg_iff
  have hzero : compare mem memcmp a b = 0 ↔ a.toString mem = b.toString mem := compare_eq_zero_iff
  constructor
  · intro hpos
    by_contra hnot
    have heq : a.toString mem = b.toString mem :=
      Std.Trichotomous.trichotomous _ _ (fun h => by have := hneg.mpr h; omega) hnot
    have := hzero.mpr heq
    omega
  · intro hlt
    have hnlt : ¬compare mem memcmp a b < 0 := fun h => List.lt_asymm hlt (hneg.mp h)
    have hne : ¬compare mem memcmp a b = 0 := fun h => List.lt_irrefl _ (hzero.mp h ▸ hlt)
    omega

/-- A comparison of slices that has the sign of the lexicographic order of their bytes, with the laws of
a total order. -/
structure Lexicographic (mem : Nat → UInt8) (cmp : Slice → Slice → Int) : Prop where
  neg_iff : ∀ a b, cmp a b < 0 ↔ a.toString mem < b.toString mem
  eq_zero_iff : ∀ a b, cmp a b = 0 ↔ a.toString mem = b.toString mem
  pos_iff : ∀ a b, 0 < cmp a b ↔ b.toString mem < a.toString mem
  antisymm : ∀ a b, (cmp a b).sign = -(cmp b a).sign
  trans : ∀ a b c, cmp a b ≤ 0 → cmp b c ≤ 0 → cmp a c ≤ 0
  trans_lt : ∀ a b c, cmp a b < 0 → cmp b c < 0 → cmp a c < 0

theorem compare_antisymm : (compare mem memcmp a b).sign = -(compare mem memcmp b a).sign := by
  rcases Int.lt_trichotomy (compare mem memcmp a b) 0 with h | h | h
  · have hpos : 0 < compare mem memcmp b a := compare_pos_iff.mpr (compare_neg_iff.mp h)
    rw [Int.sign_eq_neg_one_of_neg h, Int.sign_eq_one_of_pos hpos]
  · have hzero : compare mem memcmp b a = 0 := compare_eq_zero_iff.mpr (compare_eq_zero_iff.mp h).symm
    rw [h, hzero, Int.sign_zero, Int.neg_zero]
  · have hneg : compare mem memcmp b a < 0 := compare_neg_iff.mpr (compare_pos_iff.mp h)
    rw [Int.sign_eq_neg_one_of_neg hneg, Int.sign_eq_one_of_pos h, Int.neg_neg]

theorem compare_nonpos_iff : compare mem memcmp a b ≤ 0 ↔ a.toString mem ≤ b.toString mem := by
  rw [← Int.not_lt, compare_pos_iff, List.not_lt]

theorem compare_lexicographic : Lexicographic mem (compare mem memcmp) where
  neg_iff _ _ := compare_neg_iff
  eq_zero_iff _ _ := compare_eq_zero_iff
  pos_iff _ _ := compare_pos_iff
  antisymm _ _ := compare_antisymm
  trans a b c hab hbc := by
    rw [compare_nonpos_iff] at hab hbc ⊢
    exact List.le_trans hab hbc
  trans_lt a b c hab hbc := by
    rw [compare_neg_iff] at hab hbc ⊢
    exact List.lt_trans hab hbc

theorem toString_ofSize {n : Nat} (hn : n ≤ a.size) : (ofSize a.pb n).toString mem = (a.toString mem).take n :=
  read_eq_take hn

/-- `startWith` is equality with the first bytes. -/
theorem startWith_eq_true_iff : startWith mem memcmp a b = true ↔
    b.size ≤ a.size ∧ compare mem memcmp (ofSize a.pb b.size) b = 0 := by
  have hlen : (read mem a.pb (a.pb + b.size)).length = (read mem b.pb (b.pb + b.size)).length := by simp
  have hb : read mem b.pb (b.pb + b.size) = b.toString mem := by
    rw [read_eq_take (Nat.le_refl _), List.take_of_length_le (by simp)]
  rw [startWith, Bool.and_eq_true, decide_eq_true_iff, decide_eq_true_iff, memcmp.eq_zero_iff hlen, hb,
    compare_eq_zero_iff]
  rfl

/-- `startWith` finds a prefix. -/
theorem startWith_iff_prefix : startWith mem memcmp a b = true ↔ b.toString mem <+: a.toString mem := by
  rw [startWith_eq_true_iff, compare_eq_zero_iff, List.prefix_iff_eq_take, length_toString]
  constructor
  · rintro ⟨hle, heq⟩
    rw [← heq, toString_ofSize hle]
  · intro heq
    have hle : b.size ≤ a.size := by
      have hlen := congrArg List.length heq
      rw [List.length_take, length_toString, length_toString] at hlen
      omega
    exact ⟨hle, (toString_ofSize hle).trans heq.symm⟩

/-- The last `n` bytes of a slice. -/
theorem read_eq_drop {n : Nat} (hn : n ≤ a.size) :
    read mem (a.pe - n) a.pe = (a.toString mem).drop (a.size - n) := by
  have hle := a.le
  have hsize : a.size = a.pe - a.pb := rfl
  have hpb : a.pb ≤ a.pe - n := by omega
  have hlen : (read mem a.pb (a.pe - n)).length = a.size - n := by
    rw [length_read]
    omega
  rw [toString, ← read_append_read hpb (Nat.sub_le a.pe n)]
  exact (List.drop_left' hlen).symm

/-- `endWith` finds a suffix. -/
theorem endWith_iff_suffix : endWith mem memcmp a b = true ↔ b.toString mem <:+ a.toString mem := by
  have hb : read mem b.pb (b.pb + b.size) = b.toString mem := by
    rw [read_eq_take (Nat.le_refl _), List.take_of_length_le (by simp)]
  rw [endWith, hb, Bool.and_eq_true, decide_eq_true_iff, decide_eq_true_iff, List.suffix_iff_eq_drop,
    length_toString, length_toString]
  constructor
  · rintro ⟨hle, heq⟩
    rw [read_eq_drop hle, memcmp.eq_zero_iff (by simp; omega)] at heq
    exact heq.symm
  · intro heq
    have hle : b.size ≤ a.size := by
      have hlen := congrArg List.length heq
      rw [List.length_drop, length_toString, length_toString] at hlen
      omega
    rw [read_eq_drop hle, ← heq]
    exact ⟨hle, (memcmp.eq_zero_iff rfl).mpr rfl⟩

/-- **`compare` is the lexicographic total order on unsigned bytes**, and `startWith` holds exactly of a
slice whose first bytes compare equal to those of the other. -/
theorem compare_total_order (mem : Nat → UInt8) (memcmp : Memcmp) :
    Lexicographic mem (compare mem memcmp) ∧
      ∀ a b, startWith mem memcmp a b = true ↔
        b.size ≤ a.size ∧ compare mem memcmp (ofSize a.pb b.size) b = 0 :=
  ⟨compare_lexicographic, fun _ _ => startWith_eq_true_iff⟩

end NetLibrary.Slice
