import NetLibrary.Model.Util

/-!
# Range number parsing

The end of the range that `atoi` and `atoi2` are given is only the place where `strtol` puts the end of the
number: nothing stops `strtol` there, and `atoi2` compares the address of that place with itself. So both
read on behind the range, and `atoi2` never finds that something is left over.
-/

namespace NetLibrary.Util
open Decimal

variable {r x : Bytes}

theorem atoi2_eq (r : Range) : atoi2 r = atoi r := rfl

theorem isspace_of_isdigit {c : UInt8} (h : isdigit c = true) : isspace c = false := by
  obtain ⟨hlow, -⟩ := Bool.and_eq_true_iff.mp h
  have hlow : 48 ≤ c.toNat := UInt8.le_iff_toNat_le.mp (of_decide_eq_true hlow)
  refine Bool.or_eq_false_iff.mpr ⟨decide_eq_false ?_, Bool.and_eq_false_imp.mpr fun _ => decide_eq_false ?_⟩
  · rintro rfl
    exact absurd hlow (by decide)
  · intro hhigh
    exact absurd (Nat.le_trans hlow (UInt8.le_iff_toNat_le.mp hhigh)) (by decide)

theorem not_isspace {c : UInt8} (hc : isdigit c = true ∨ c = '-'.toUInt8 ∨ c = '+'.toUInt8) :
    isspace c = false := by
  rcases hc with hc | rfl | rfl
  · exact isspace_of_isdigit hc
  · rfl
  · rfl

/-- What `atoi2` is to return for the range alone. -/
def parsed (r : Bytes) : Int := (integer r).getD (-1)

/-- What follows the range does not matter: to an integer, because it is `Inert`; to any other range, because
what is read is -1 all the same. -/
def Bounded (r x : Bytes) : Prop :=
  match integer r with
  | some v => Inert v x
  | none => MinusOne isspace (r ++ x)

theorem atoi_parsed_iff : atoi ⟨r, x⟩ = parsed r ↔ Bounded r x := by
  rw [atoi, strtol, parsed, Bounded]
  cases hr : integer r with
  | some v => exact strtol_integer_iff (fun _ => not_isspace) hr
  | none => exact strtol_eq_neg_one_iff

/-- **Range number parsing respects its range exactly if what follows the range is harmless.** Two ranges hold the
same bytes `r`, followed by `x` and by `y`. -/
theorem atoi_range_iff (r x y : Bytes) :
    (atoi ⟨r, x⟩ = atoi ⟨r, y⟩ ∧ atoi2 ⟨r, x⟩ = atoi2 ⟨r, y⟩ ∧ atoi2 ⟨r, x⟩ = parsed r) ↔
      Bounded r x ∧ Bounded r y := by
  simp only [atoi2_eq, ← atoi_parsed_iff]
  constructor
  · rintro ⟨hsame, -, hx⟩
    exact ⟨hx, hsame ▸ hx⟩
  · rintro ⟨hx, hy⟩
    exact ⟨hx.trans hy.symm, hx.trans hy.symm, hx⟩

def twelve : Bytes := ['1'.toUInt8, '2'.toUInt8]

/-- The range `12`, at the end of a text and in front of a 3. -/
theorem atoi_reads_on : ¬(atoi ⟨twelve, []⟩ = atoi ⟨twelve, ['3'.toUInt8]⟩ ∧
    atoi2 ⟨twelve, []⟩ = atoi2 ⟨twelve, ['3'.toUInt8]⟩ ∧ atoi2 ⟨twelve, []⟩ = parsed twelve) := by
  decide

/-! ## Formatted texts -/

section
variable {s : Bytes} {n : Int}

theorem cString_append_zero {t : Bytes} (h : 0 ∉ s) : cString (s ++ 0 :: t) = s := by
  have hs : ∀ c ∈ s, decide (c ≠ 0) = true := by
    intro c hc
    exact decide_eq_true fun h0 => h (h0 ▸ hc)
  rw [cString, List.takeWhile_append_of_pos hs]
  simp

/-- A text that is not too long for the second buffer is formatted as it is. -/
theorem format_eq (hzero : 0 ∉ s) (hlen : s.length < 1000) : format s = s := by
  have hfits : ∀ {size}, s.length < size → s.take (size - 1) ++ [0] = s ++ [0] := by
    intro size h
    rw [List.take_of_length_le (by omega)]
  rw [format, formatLoop, vsnprintf]
  dsimp only
  split
  case isTrue h =>
    rw [if_neg (by decide), formatLoop, vsnprintf]
    dsimp only
    rw [if_neg (by omega), hfits hlen, cString_append_zero hzero]
  case isFalse h => rw [hfits (by omega), cString_append_zero hzero]

theorem formatD_nat {n : Nat} : formatD n = digits n := by
  rw [formatD, if_neg (by omega), Int.natAbs_natCast]

theorem not_mem_formatD {c : UInt8} (hdigit : isdigit c = false) (hsign : c ≠ '-'.toUInt8) : c ∉ formatD n := by
  have hdigits : c ∉ digits n.natAbs := not_mem_digits hdigit
  rw [formatD]
  split
  · rw [List.mem_cons, not_or]
    exact ⟨hsign, hdigits⟩
  · exact hdigits

theorem formatD_ne_nil : formatD n ≠ [] := by
  rw [formatD]
  split
  · exact List.cons_ne_nil _ _
  · exact digits_ne_nil

theorem length_formatD_le (hlow : -100000 < n) (hhigh : n < 100000) : (formatD n).length ≤ 6 := by
  have hlen : (digits n.natAbs).length ≤ 5 := by
    rw [digits, List.length_map]
    exact (Nat.length_toDigits_le_iff (by decide) (by decide)).mpr (by omega)
  rw [formatD]
  split
  · rw [List.length_cons]
    omega
  · omega

end

end NetLibrary.Util
