import Mathlib.Data.List.Basic
import Mathlib.Data.List.TakeWhile

/-!
# Decimal numbers in a text

`strtol` of C in base 10, on texts of bytes, and the texts of which it reads a number back. Which bytes are
blank is a parameter.
-/

namespace Decimal

def isdigit (c : UInt8) : Bool := '0'.toUInt8 ≤ c && c ≤ '9'.toUInt8

def value (s : List UInt8) : Nat := s.foldl (fun n c => 10 * n + (c.toNat - '0'.toNat)) 0

/-- The digits of a number. -/
def digits (n : Nat) : List UInt8 := (Nat.toDigits 10 n).map Char.toUInt8

def LONG_MAX : Int := 0x7fffffffffffffff

def LONG_MIN : Int := -0x8000000000000000

/-- `strtol`, in a `long` of 64 bits. -/
def strtol (isspace : UInt8 → Bool) (s : List UInt8) : Int :=
  let s := s.dropWhile isspace
  if s.head? = some '-'.toUInt8 then max (-value (s.tail.takeWhile isdigit)) LONG_MIN
  else if s.head? = some '+'.toUInt8 then min (value (s.tail.takeWhile isdigit)) LONG_MAX
  else min (value (s.takeWhile isdigit)) LONG_MAX

variable {c : Char} {n : Nat} {isspace : UInt8 → Bool} {rest : List UInt8}

theorem toNat_toUInt8 (h : c.isDigit = true) : c.toUInt8.toNat = c.toNat := by
  have hmod : c.toUInt8.toNat = c.toNat % 256 := UInt32.toNat_toUInt8 c.val
  have hle : c.toNat ≤ 57 := (Char.isDigit_iff_toNat.mp h).2
  omega

theorem isdigit_toUInt8 (h : c.isDigit = true) : isdigit c.toUInt8 = true := by
  obtain ⟨hlow, hhigh⟩ := Char.isDigit_iff_toNat.mp h
  rw [← toNat_toUInt8 h] at hlow hhigh
  exact Bool.and_eq_true_iff.mpr ⟨decide_eq_true (UInt8.le_iff_toNat_le.mpr hlow),
    decide_eq_true (UInt8.le_iff_toNat_le.mpr hhigh)⟩

theorem isdigit_of_mem_digits : ∀ c ∈ digits n, isdigit c = true := by
  intro c hc
  obtain ⟨d, hd, rfl⟩ := List.mem_map.mp hc
  exact isdigit_toUInt8 (Nat.isDigit_of_mem_toDigits (by decide) (by decide) hd)

theorem digits_ne_nil : digits n ≠ [] := fun h => Nat.toDigits_ne_nil (List.map_eq_nil_iff.mp h)

theorem not_mem_digits {c : UInt8} (hc : isdigit c = false) : c ∉ digits n := by
  intro h
  rw [isdigit_of_mem_digits c h] at hc
  cases hc

theorem value_digits : value (digits n) = n := by
  calc value (digits n)
    _ = Nat.ofDigitChars 10 (Nat.toDigits 10 n) 0 := by
      rw [value, digits, List.foldl_map, Nat.ofDigitChars_eq_foldl]
      refine List.foldl_ext _ _ _ fun m c hc => ?_
      rw [toNat_toUInt8 (Nat.isDigit_of_mem_toDigits (by decide) (by decide) hc)]
    _ = n := Nat.ofDigitChars_ten_toDigits

theorem takeWhile_digits (hrest : ∀ c ∈ rest.head?, isdigit c = false) :
    (digits n ++ rest).takeWhile isdigit = digits n := by
  rw [List.takeWhile_append_of_pos isdigit_of_mem_digits]
  cases rest with
  | nil => exact List.append_nil _
  | cons c rest => rw [List.takeWhile_cons_of_neg (by simp [hrest c rfl]), List.append_nil]

/-- A number is read back, up to the first byte that is no digit. -/
theorem strtol_digits (hspace : ∀ c, isdigit c = true → isspace c = false) (hn : n ≤ LONG_MAX)
    (hrest : ∀ c ∈ rest.head?, isdigit c = false) : strtol isspace (digits n ++ rest) = n := by
  obtain ⟨d, ds, hdigits⟩ : ∃ d ds, digits n = d :: ds := List.exists_cons_of_ne_nil digits_ne_nil
  have hd : isdigit d = true := isdigit_of_mem_digits d (hdigits ▸ List.mem_cons_self)
  have hdrop : (digits n ++ rest).dropWhile isspace = digits n ++ rest := by
    rw [hdigits, List.cons_append, List.dropWhile_cons_of_neg (by simp [hspace d hd])]
  have hhead : (digits n ++ rest).head? = some d := by
    rw [hdigits]
    rfl
  have hminus : ¬some d = some '-'.toUInt8 := by
    intro h
    cases h
    cases hd
  have hplus : ¬some d = some '+'.toUInt8 := by
    intro h
    cases h
    cases hd
  simp only [strtol, hdrop, hhead, if_neg hminus, if_neg hplus, takeWhile_digits hrest, value_digits]
  exact Int.min_eq_left hn

/-! ## Numbers in front of other bytes -/

/-- Whether a text starts with a minus sign. -/
def negative (s : List UInt8) : Bool := s.head? = some '-'.toUInt8

/-- A text without its sign. -/
def body (s : List UInt8) : List UInt8 :=
  if s.head? = some '-'.toUInt8 ∨ s.head? = some '+'.toUInt8 then s.tail else s

/-- The decimal integer that a text as a whole is, if it is one and fits into a `long`. -/
def integer (s : List UInt8) : Option Int :=
  if body s ≠ [] ∧ (body s).all isdigit then
    let n : Int := value (body s)
    let v := if negative s then -n else n
    if LONG_MIN ≤ v ∧ v ≤ LONG_MAX then some v else none
  else none

variable {s d x : List UInt8} {v : Int} {a : Nat}

theorem strtol_eq (isspace : UInt8 → Bool) (s : List UInt8) : strtol isspace s =
    let t := s.dropWhile isspace
    let n : Int := value ((body t).takeWhile isdigit)
    if negative t then max (-n) LONG_MIN else min n LONG_MAX := by
  simp only [strtol, negative, body, decide_eq_true_eq]
  generalize s.dropWhile isspace = t
  by_cases hminus : t.head? = some '-'.toUInt8
  · simp only [if_pos hminus, if_pos (Or.inl hminus)]
  · simp only [if_neg hminus]
    by_cases hplus : t.head? = some '+'.toUInt8
    · rw [if_pos hplus, if_pos (.inr hplus)]
    · rw [if_neg hplus, if_neg (by simp [hminus, hplus])]

/-- A number with one more digit behind it. -/
def push (n : Nat) (c : UInt8) : Nat := 10 * n + (c.toNat - '0'.toNat)

theorem value_append : value (s ++ d) = d.foldl push (value s) := List.foldl_append

theorem isdigit_iff {c : UInt8} : isdigit c = true ↔ 48 ≤ c.toNat ∧ c.toNat ≤ 57 := by
  rw [isdigit, Bool.and_eq_true, decide_eq_true_iff, decide_eq_true_iff, UInt8.le_iff_toNat_le,
    UInt8.le_iff_toNat_le]
  rfl

theorem push_eq {c : UInt8} : push a c = 10 * a + (c.toNat - 48) := rfl

theorem le_foldl_push : a ≤ d.foldl push a := by
  induction d generalizing a with
  | nil => exact Nat.le_refl a
  | cons c d ih =>
    have hpush : a ≤ push a c := by
      rw [push_eq]
      omega
    exact Nat.le_trans hpush ih

/-- Digits behind a number leave its value alone only if there are none, or all of it is zeros. -/
theorem foldl_push_eq_iff (hd : ∀ c ∈ d, isdigit c = true) :
    d.foldl push a = a ↔ d = [] ∨ (a = 0 ∧ ∀ c ∈ d, c = '0'.toUInt8) := by
  induction d generalizing a with
  | nil => simp
  | cons c d ih =>
    have hc := isdigit_iff.mp (hd c List.mem_cons_self)
    have hle : push a c ≤ d.foldl push (push a c) := le_foldl_push
    have hpush : push a c = 10 * a + (c.toNat - 48) := push_eq
    rw [List.foldl_cons]
    constructor
    · intro h
      have ha : a = 0 := by omega
      have hzero : c.toNat = 48 := by omega
      have hc0 : c = '0'.toUInt8 := UInt8.toNat_inj.mp hzero
      have hpush0 : push a c = 0 := by omega
      rw [hpush0, ha] at h
      rcases (ih fun c' h' => hd c' (List.mem_cons_of_mem _ h')).mp h with rfl | ⟨-, hall⟩
      · exact .inr ⟨ha, by simpa using hc0⟩
      · exact .inr ⟨ha, List.forall_mem_cons.mpr ⟨hc0, hall⟩⟩
    · rintro (hnil | ⟨rfl, hall⟩)
      · cases hnil
      · obtain ⟨rfl, htail⟩ := List.forall_mem_cons.mp hall
        exact (ih fun c' h' => hd c' (List.mem_cons_of_mem _ h')).mpr (.inr ⟨rfl, htail⟩)

/-- The digits of the number 1. -/
theorem value_eq_one_iff (hd : ∀ c ∈ d, isdigit c = true) :
    value d = 1 ↔ d.dropWhile (· = '0'.toUInt8) = ['1'.toUInt8] := by
  induction d with
  | nil => simp [value]
  | cons c d ih =>
    have hc := isdigit_iff.mp (hd c List.mem_cons_self)
    have hvalue : value (c :: d) = d.foldl push (push 0 c) := rfl
    by_cases hzero : c = '0'.toUInt8
    · rw [List.dropWhile_cons_of_pos (by simpa using hzero), ← ih fun c' h' => hd c' (List.mem_cons_of_mem _ h'),
        hvalue, hzero]
      rfl
    · rw [List.dropWhile_cons_of_neg (by simpa using hzero), hvalue]
      have hpos : 1 ≤ push 0 c := by
        have hne : c.toNat ≠ 48 := fun h => hzero (UInt8.toNat_inj.mp h)
        rw [push_eq]
        omega
      have hone : push 0 c = 1 ↔ c = '1'.toUInt8 := by
        rw [push_eq, ← UInt8.toNat_inj]
        have h49 : '1'.toUInt8.toNat = 49 := rfl
        omega
      cases d with
      | nil => simpa using hone
      | cons c' d =>
        have hle : push (push 0 c) c' ≤ d.foldl push (push (push 0 c) c') := le_foldl_push
        have hten : 10 * push 0 c ≤ push (push 0 c) c' := Nat.le_add_right _ _
        refine iff_of_false ?_ (by simp)
        rw [List.foldl_cons]
        omega

/-- The texts that are read as -1: spaces, a minus sign, zeros and a single 1 before the first byte that is no
digit. -/
def MinusOne (isspace : UInt8 → Bool) (s : List UInt8) : Prop :=
  let t := s.dropWhile isspace
  negative t = true ∧ ((body t).takeWhile isdigit).dropWhile (· = '0'.toUInt8) = ['1'.toUInt8]

instance : Decidable (MinusOne isspace s) := inferInstanceAs (Decidable (_ ∧ _))

theorem strtol_eq_neg_one_iff : strtol isspace s = -1 ↔ MinusOne isspace s := by
  rw [strtol_eq, MinusOne]
  generalize s.dropWhile isspace = t
  dsimp only
  rw [← value_eq_one_iff fun c hc => List.mem_takeWhile_imp hc]
  generalize value ((body t).takeWhile isdigit) = n
  simp only [LONG_MAX, LONG_MIN]
  cases negative t with
  | true =>
    rw [if_pos rfl, and_iff_right rfl]
    omega
  | false =>
    rw [if_neg Bool.false_ne_true]
    refine iff_of_false (by omega) ?_
    rintro ⟨hneg, -⟩
    cases hneg

/-- What follows an integer does not change what is read: no digit, or zeros after a zero, or anything after the
largest or the smallest of a `long`. -/
def Inert (v : Int) (x : List UInt8) : Prop :=
  x.takeWhile isdigit = [] ∨ (v = 0 ∧ ∀ c ∈ x.takeWhile isdigit, c = '0'.toUInt8) ∨ v = LONG_MAX ∨ v = LONG_MIN

instance : Decidable (Inert v x) := inferInstanceAs (Decidable (_ ∨ _ ∨ _ ∨ _))

theorem integer_eq_some_iff : integer s = some v ↔ body s ≠ [] ∧ (∀ c ∈ body s, isdigit c = true) ∧
    (LONG_MIN ≤ v ∧ v ≤ LONG_MAX) ∧ v = if negative s then -(value (body s) : Int) else value (body s) := by
  simp only [integer, List.all_eq_true, Option.ite_none_right_eq_some, Option.some.injEq, and_assoc]
  constructor
  · rintro ⟨hne, hall, hlow, hhigh, rfl⟩
    exact ⟨hne, hall, hlow, hhigh, rfl⟩
  · rintro ⟨hne, hall, hlow, hhigh, rfl⟩
    exact ⟨hne, hall, hlow, hhigh, rfl⟩

/-- Bytes behind an integer come after its body. -/
theorem negative_append (hs : s ≠ []) : negative (s ++ x) = negative s := by
  obtain ⟨c, t, rfl⟩ := List.exists_cons_of_ne_nil hs
  rfl

theorem body_append (hs : s ≠ []) : body (s ++ x) = body s ++ x := by
  obtain ⟨c, t, rfl⟩ := List.exists_cons_of_ne_nil hs
  rw [List.cons_append, body, body, List.head?_cons, List.head?_cons]
  split
  · rfl
  · rfl

/-- A text with a body of digits starts with a sign or a digit. -/
theorem head_of_body (hne : body s ≠ []) (hall : ∀ c ∈ body s, isdigit c = true) :
    ∃ c t, s = c :: t ∧ (isdigit c = true ∨ c = '-'.toUInt8 ∨ c = '+'.toUInt8) := by
  cases s with
  | nil => exact absurd rfl hne
  | cons c t =>
    refine ⟨c, t, rfl, ?_⟩
    by_cases hsign : c = '-'.toUInt8 ∨ c = '+'.toUInt8
    · exact .inr hsign
    · have hbody : body (c :: t) = c :: t := by
        rw [body, if_neg (by simpa using hsign)]
      rw [hbody] at hall
      exact .inl (hall c List.mem_cons_self)

/-- An integer is read back exactly if what follows it is `Inert`. -/
theorem strtol_integer_iff (hspace : ∀ c, isdigit c = true ∨ c = '-'.toUInt8 ∨ c = '+'.toUInt8 → isspace c = false)
    (hv : integer s = some v) : strtol isspace (s ++ x) = v ↔ Inert v x := by
  obtain ⟨hne, hall, ⟨hlow, hhigh⟩, hsign⟩ := integer_eq_some_iff.mp hv
  obtain ⟨c, t, hs, hc⟩ := head_of_body hne hall
  have hs' : s ≠ [] := hs ▸ List.cons_ne_nil c t
  have hdrop : (s ++ x).dropWhile isspace = s ++ x := by
    rw [hs, List.cons_append, List.dropWhile_cons_of_neg (by simp [hspace c hc])]
  have hd : ∀ c ∈ x.takeWhile isdigit, isdigit c = true := fun c hc => List.mem_takeWhile_imp hc
  have hsame : (x.takeWhile isdigit).foldl push (value (body s)) = value (body s) ↔ _ := foldl_push_eq_iff hd
  have hle : value (body s) ≤ (x.takeWhile isdigit).foldl push (value (body s)) := le_foldl_push
  rw [strtol_eq]
  dsimp only
  rw [hdrop, negative_append hs', body_append hs', List.takeWhile_append_of_pos hall, value_append, Inert]
  generalize (x.takeWhile isdigit).foldl push (value (body s)) = n at *
  generalize value (body s) = m at *
  rw [← or_assoc]
  simp only [LONG_MAX, LONG_MIN] at *
  cases hneg : negative s with
  | true =>
    rw [hneg, if_pos rfl] at hsign
    have hzero : v = 0 ↔ m = 0 := by omega
    rw [if_pos rfl, hzero, ← hsame]
    omega
  | false =>
    rw [hneg, if_neg Bool.false_ne_true] at hsign
    have hzero : v = 0 ↔ m = 0 := by omega
    rw [if_neg Bool.false_ne_true, hzero, ← hsame]
    omega

end Decimal
