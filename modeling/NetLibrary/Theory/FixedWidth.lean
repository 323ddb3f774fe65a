import Mathlib.Tactic.Ring
import NetLibrary.Theory.Decimal
import NetLibrary.Theory.ListOrder

/-!
# Fields of fixed width

Numbers that are filled up with zeros to one width are in the order of their texts. So are records that
consist of such fields, from the first field on that differs.
-/

namespace FixedWidth
open Decimal ListOrder

/-! ## Numbers of one width -/

variable {a b x y : List UInt8} {w m n : Nat}

theorem foldl_push : a.foldl push n = n * 10 ^ a.length + value a := by
  induction a generalizing n with
  | nil => simp [value]
  | cons c a ih =>
    have hzero : value (c :: a) = a.foldl push (push 0 c) := rfl
    rw [List.foldl_cons, hzero, ih, ih, push_eq, push_eq, List.length_cons, Nat.pow_succ]
    ring

theorem value_cons {c : UInt8} : value (c :: a) = (c.toNat - 48) * 10 ^ a.length + value a := by
  have hpush : value (c :: a) = a.foldl push (push 0 c) := rfl
  rw [hpush, foldl_push, push_eq, Nat.mul_zero, Nat.zero_add]

theorem value_lt (ha : ∀ c ∈ a, isdigit c = true) : value a < 10 ^ a.length := by
  induction a with
  | nil => exact Nat.one_pos
  | cons c a ih =>
    have hc := isdigit_iff.mp (ha c List.mem_cons_self)
    have hrest := ih fun d hd => ha d (List.mem_cons_of_mem c hd)
    have hdigit : (c.toNat - 48) * 10 ^ a.length ≤ 9 * 10 ^ a.length :=
      Nat.mul_le_mul_right _ (by omega)
    rw [value_cons, List.length_cons, Nat.pow_succ]
    omega

/-- Texts of digits of one length are in the order of their values. -/
theorem lt_iff_value_lt (hlen : a.length = b.length) (ha : ∀ c ∈ a, isdigit c = true)
    (hb : ∀ c ∈ b, isdigit c = true) : a < b ↔ value a < value b := by
  induction a generalizing b with
  | nil =>
    obtain rfl := List.length_eq_zero_iff.mp hlen.symm
    simp
  | cons c a ih =>
    cases b with
    | nil => cases hlen
    | cons d b =>
      have hlen := Nat.succ.inj hlen
      have ha' : ∀ c ∈ a, isdigit c = true := fun x hx => ha x (List.mem_cons_of_mem c hx)
      have hb' : ∀ c ∈ b, isdigit c = true := fun x hx => hb x (List.mem_cons_of_mem d hx)
      have hc := isdigit_iff.mp (ha c List.mem_cons_self)
      have hd := isdigit_iff.mp (hb d List.mem_cons_self)
      have hva := value_lt ha'
      have hvb := value_lt hb'
      rw [List.cons_lt_cons_iff, ih hlen ha' hb', value_cons, value_cons, UInt8.lt_iff_toNat_lt, ← UInt8.toNat_inj,
        hlen]
      rw [hlen] at hva
      generalize 10 ^ b.length = p at *
      rcases Nat.lt_trichotomy c.toNat d.toNat with hlt | heq | hgt
      · refine iff_of_true (.inl hlt) ?_
        have hmul : (c.toNat - 48 + 1) * p ≤ (d.toNat - 48) * p := Nat.mul_le_mul_right p (by omega)
        rw [Nat.succ_mul] at hmul
        omega
      · rw [heq]
        simp
      · refine iff_of_false (by omega) ?_
        have hmul : (d.toNat - 48 + 1) * p ≤ (c.toNat - 48) * p := Nat.mul_le_mul_right p (by omega)
        rw [Nat.succ_mul] at hmul
        omega

/-- `%0wd` of a number that is not negative. -/
def pad (w n : Nat) : List UInt8 := List.replicate (w - (digits n).length) '0'.toUInt8 ++ digits n

theorem length_pad (hw : 0 < w) (hn : n < 10 ^ w) : (pad w n).length = w := by
  have hlen : (digits n).length ≤ w := by
    rw [digits, List.length_map]
    exact (Nat.length_toDigits_le_iff (by decide) hw).mpr hn
  rw [pad, List.length_append, List.length_replicate]
  omega

theorem isdigit_of_mem_pad : ∀ c ∈ pad w n, isdigit c = true := by
  intro c hc
  rcases List.mem_append.mp hc with hzero | hdigit
  · rw [List.eq_of_mem_replicate hzero]
    rfl
  · exact isdigit_of_mem_digits c hdigit

theorem value_pad : value (pad w n) = n := by
  have hzeros : ∀ k, value (List.replicate k '0'.toUInt8) = 0 := by
    intro k
    induction k with
    | zero => rfl
    | succ k ih =>
      have hzero : '0'.toUInt8.toNat - 48 = 0 := rfl
      rw [List.replicate_succ, value_cons, ih, hzero, Nat.zero_mul]
  rw [pad, value_append, hzeros]
  exact value_digits

theorem pad_inj : pad w m = pad w n ↔ m = n := by
  constructor
  · intro h
    rw [← value_pad (w := w) (n := m), h, value_pad]
  · rintro rfl
    rfl

/-- **Padded numbers in front of other texts decide, unless they are equal.** -/
theorem pad_append_lt_iff (hw : 0 < w) (hm : m < 10 ^ w) (hn : n < 10 ^ w) :
    pad w m ++ x < pad w n ++ y ↔ m < n ∨ m = n ∧ x < y := by
  have hlen : (pad w m).length = (pad w n).length := by rw [length_pad hw hm, length_pad hw hn]
  rw [append_lt_append_iff hlen, lt_iff_value_lt hlen isdigit_of_mem_pad isdigit_of_mem_pad, value_pad, value_pad,
    pad_inj]

/-! ## Records -/

/-- What a format with a field for each number prints. A field is a width, with the text that follows it. -/
def render : List (Nat × List UInt8) → List Nat → List UInt8
  | (w, sep) :: fmt, n :: ns => pad w n ++ (sep ++ render fmt ns)
  | _, _ => []

/-- Every number fits into its field. -/
def Fits : List (Nat × List UInt8) → List Nat → Prop
  | [], [] => True
  | (w, _) :: fmt, n :: ns => (0 < w ∧ n < 10 ^ w) ∧ Fits fmt ns
  | _, _ => False

/-- The length of a record. -/
def width : List (Nat × List UInt8) → Nat
  | [] => 0
  | (w, sep) :: fmt => w + (sep.length + width fmt)

variable {fmt : List (Nat × List UInt8)} {ms ns : List Nat}

theorem length_render (h : Fits fmt ns) : (render fmt ns).length = width fmt := by
  induction fmt generalizing ns with
  | nil => rfl
  | cons f fmt ih =>
    obtain ⟨w, sep⟩ := f
    cases ns with
    | nil => cases h
    | cons n ns =>
      obtain ⟨⟨hw, hn⟩, hrest⟩ := h
      rw [render, List.length_append, List.length_append, length_pad hw hn, ih hrest, width]

/-- A byte that is neither a digit nor in the text between the fields. -/
theorem not_mem_render {c : UInt8} (hc : isdigit c = false) (hfmt : ∀ f ∈ fmt, c ∉ f.2) : c ∉ render fmt ns := by
  induction fmt generalizing ns with
  | nil => exact List.not_mem_nil
  | cons f fmt ih =>
    cases ns with
    | nil => exact List.not_mem_nil
    | cons n ns =>
      rw [render, List.mem_append, List.mem_append, not_or, not_or]
      refine ⟨fun hpad => ?_, hfmt f List.mem_cons_self, ih fun g hg => hfmt g (List.mem_cons_of_mem f hg)⟩
      rw [isdigit_of_mem_pad c hpad] at hc
      cases hc

/-- **Records are in the order of their numbers**, whatever follows them. -/
theorem render_append_lt_iff (hm : Fits fmt ms) (hn : Fits fmt ns) :
    render fmt ms ++ x < render fmt ns ++ y ↔ ms < ns ∨ ms = ns ∧ x < y := by
  induction fmt generalizing ms ns with
  | nil =>
    cases ms with
    | cons => cases hm
    | nil =>
      cases ns with
      | cons => cases hn
      | nil => simp [render]
  | cons f fmt ih =>
    obtain ⟨w, sep⟩ := f
    cases ms with
    | nil => cases hm
    | cons m ms =>
      cases ns with
      | nil => cases hn
      | cons n ns =>
        obtain ⟨⟨hw, hmw⟩, hm⟩ := hm
        obtain ⟨⟨-, hnw⟩, hn⟩ := hn
        rw [render, render, List.append_assoc, List.append_assoc, List.append_assoc, List.append_assoc,
          pad_append_lt_iff hw hmw hnw, append_lt_append_left_iff, ih hm hn, List.cons_lt_cons_iff,
          List.cons.injEq]
        grind

end FixedWidth
