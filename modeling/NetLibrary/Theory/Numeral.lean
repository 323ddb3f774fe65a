import NetLibrary.Theory.Decimal

/-!
# Numerals with a prefix

`strtol` of C with base 0, which takes the base from the text: 16 behind `0x`, 8 behind another `0`, and 10
elsewhere. `literal` is the text of a number in one of these bases, and it is read back as this number.
-/

namespace Numeral
open Decimal (negative body LONG_MAX LONG_MIN)

/-- The value of a digit of any base, and 36 for all other bytes. -/
def digit (c : UInt8) : Nat :=
  if '0'.toUInt8 ≤ c ∧ c ≤ '9'.toUInt8 then c.toNat - '0'.toNat
  else if 'a'.toUInt8 ≤ c ∧ c ≤ 'z'.toUInt8 then c.toNat - 'a'.toNat + 10
  else if 'A'.toUInt8 ≤ c ∧ c ≤ 'Z'.toUInt8 then c.toNat - 'A'.toNat + 10
  else 36

def isdigit (base : Nat) (c : UInt8) : Bool := digit c < base

def value (base : Nat) (s : List UInt8) : Nat := s.foldl (fun n c => base * n + digit c) 0

/-- The digits of a number, the letters among them small. -/
def digits (base n : Nat) : List UInt8 := (Nat.toDigits base n).map Char.toUInt8

/-- The base of a text without its sign, and the text without the prefix. A `0x` without a digit behind it
is a zero. -/
def split (s : List UInt8) : Nat × List UInt8 :=
  match s with
  | z :: x :: c :: rest =>
    if z = '0'.toUInt8 then
      if (x = 'x'.toUInt8 ∨ x = 'X'.toUInt8) ∧ isdigit 16 c then (16, c :: rest) else (8, s)
    else (10, s)
  | z :: _ => if z = '0'.toUInt8 then (8, s) else (10, s)
  | [] => (10, s)

def clamp (v : Int) : Int := max LONG_MIN (min v LONG_MAX)

/-- `strtol(s, &e, 0)`, in a `long` of 64 bits: `none` if there is no number, and `e` is `s`. -/
def strtol (isspace : UInt8 → Bool) (s : List UInt8) : Option Int :=
  let s := s.dropWhile isspace
  let (base, t) := split (body s)
  let ds := t.takeWhile (isdigit base)
  if ds = [] then none
  else
    let n : Int := value base ds
    some (clamp (if negative s then -n else n))

inductive Base
  | dec
  | oct
  | hex
  deriving DecidableEq, Repr

def Base.toNat : Base → Nat
  | .dec => 10
  | .oct => 8
  | .hex => 16

/-- The text of a number that is not negative. -/
def magnitude : Base → Nat → List UInt8
  | .dec, n => digits 10 n
  | .oct, n => '0'.toUInt8 :: digits 8 n
  | .hex, n => '0'.toUInt8 :: 'x'.toUInt8 :: digits 16 n

/-- The text of a number, as in C. -/
def literal (base : Base) (v : Int) : List UInt8 :=
  if v < 0 then '-'.toUInt8 :: magnitude base v.natAbs else magnitude base v.natAbs

variable {b n : Nat} {s rest : List UInt8} {c : UInt8} {isspace : UInt8 → Bool} {base : Base} {v : Int}

/-! ## Digits -/

theorem digit_digitChar : ∀ d < 16, digit (Nat.digitChar d).toUInt8 = d := by decide

/-- The bytes before the digits. -/
theorem digit_of_lt (h : c < '0'.toUInt8) : digit c = 36 := by
  have hlt : c.toNat < 48 := UInt8.lt_iff_toNat_lt.mp h
  have hle : ∀ d : UInt8, 48 ≤ d.toNat → ¬d ≤ c := fun d hd hdc =>
    absurd (UInt8.le_iff_toNat_le.mp hdc) (by omega)
  rw [digit, if_neg fun h => hle _ (by decide) h.1, if_neg fun h => hle _ (by decide) h.1,
    if_neg fun h => hle _ (by decide) h.1]

theorem value_concat : value b (s ++ [c]) = b * value b s + digit c := by
  rw [value, List.foldl_append]
  rfl

theorem digits_of_lt (hn : n < b) : digits b n = [(Nat.digitChar n).toUInt8] := by
  rw [digits, Nat.toDigits_of_lt_base hn]
  rfl

theorem digits_of_le (hb : 1 < b) (hn : b ≤ n) :
    digits b n = digits b (n / b) ++ [(Nat.digitChar (n % b)).toUInt8] := by
  rw [digits, Nat.toDigits_of_base_le hb hn, List.map_append]
  rfl

/-- Induction on the digits of a number. -/
theorem digits_induction {P : Nat → Prop} (hb : 1 < b) (small : ∀ n < b, P n)
    (more : ∀ n, b ≤ n → P (n / b) → P n) (n : Nat) : P n := by
  induction n using Nat.strong_induction_on with
  | h n ih =>
    by_cases hn : n < b
    · exact small n hn
    · exact more n (Nat.not_lt.mp hn) (ih _ (Nat.div_lt_self (by omega) hb))

theorem digits_ne_nil : digits b n ≠ [] := fun h => Nat.toDigits_ne_nil (List.map_eq_nil_iff.mp h)

theorem value_digits (hb : 1 < b) (hb' : b ≤ 16) : value b (digits b n) = n := by
  induction n using digits_induction hb with
  | small n hn =>
    rw [digits_of_lt hn]
    exact (Nat.zero_add _).trans (digit_digitChar n (by omega))
  | more n hn ih =>
    have hmod : n % b < 16 := Nat.lt_of_lt_of_le (Nat.mod_lt n (by omega)) hb'
    rw [digits_of_le hb hn, value_concat, ih, digit_digitChar _ hmod, Nat.div_add_mod]

theorem isdigit_of_mem_digits (hb : 1 < b) (hb' : b ≤ 16) : ∀ c ∈ digits b n, isdigit b c = true := by
  induction n using digits_induction hb with
  | small n hn =>
    intro c hc
    rw [digits_of_lt hn, List.mem_singleton] at hc
    rw [hc, isdigit, digit_digitChar n (by omega)]
    exact decide_eq_true hn
  | more n hn ih =>
    have hmod : n % b < b := Nat.mod_lt n (by omega)
    intro c hc
    rw [digits_of_le hb hn, List.mem_append, List.mem_singleton] at hc
    rcases hc with hc | rfl
    · exact ih c hc
    · rw [isdigit, digit_digitChar _ (by omega)]
      exact decide_eq_true hmod

/-- A positive number has no zero in front. -/
theorem head_digits (hb : 1 < b) (hb' : b ≤ 16) (hn : 0 < n) : ∀ c ∈ (digits b n).head?, digit c ≠ 0 := by
  induction n using digits_induction hb with
  | small n hlt =>
    rintro c hc
    rw [digits_of_lt hlt] at hc
    cases hc
    rw [digit_digitChar n (by omega)]
    omega
  | more n hle ih =>
    have hpos : 0 < n / b := Nat.div_pos hle (by omega)
    rw [digits_of_le hb hle, List.head?_append_of_ne_nil _ digits_ne_nil]
    exact ih hpos

/-! ## Literals -/

theorem split_of_head {c : UInt8} (h : s.head? = some c) (hc : c ≠ '0'.toUInt8) : split s = (10, s) := by
  match s, h with
  | [_], rfl => exact if_neg hc
  | [_, _], rfl => exact if_neg hc
  | _ :: _ :: _ :: _, rfl => exact if_neg hc

theorem split_oct {c : UInt8} (hc : isdigit 8 c = true) :
    split ('0'.toUInt8 :: c :: s) = (8, '0'.toUInt8 :: c :: s) := by
  have hx : ¬(c = 'x'.toUInt8 ∨ c = 'X'.toUInt8) := by
    rintro (rfl | rfl)
    · exact absurd hc (by decide)
    · exact absurd hc (by decide)
  cases s with
  | nil => rfl
  | cons d s => rw [split, if_pos rfl, if_neg fun h => hx h.1]

theorem split_hex {c : UInt8} (hc : isdigit 16 c = true) :
    split ('0'.toUInt8 :: 'x'.toUInt8 :: c :: s) = (16, c :: s) := by
  rw [split, if_pos rfl, if_pos ⟨.inl rfl, hc⟩]

/-- A text that is a number in the base that is taken from it. -/
structure Reads (s : List UInt8) (n : Nat) : Prop where
  digits : ∀ c ∈ (split s).2, isdigit (split s).1 c = true
  ne_nil : (split s).2 ≠ []
  value : value (split s).1 (split s).2 = n

theorem Reads.of_split {ds : List UInt8} (hsplit : split s = (b, ds)) (hds : ∀ c ∈ ds, isdigit b c = true)
    (hne : ds ≠ []) (hn : Numeral.value b ds = n) : Reads s n where
  digits := by rwa [hsplit]
  ne_nil := by rwa [hsplit]
  value := by rwa [hsplit]

theorem reads_magnitude : Reads (magnitude base n) n := by
  have h8 : (1 < 8 ∧ 8 ≤ 16) := by decide
  have h10 : (1 < 10 ∧ 10 ≤ 16) := by decide
  have h16 : (1 < 16 ∧ 16 ≤ 16) := by decide
  cases base with
  | dec =>
    rcases Nat.eq_zero_or_pos n with rfl | hn
    · have hzero : magnitude .dec 0 = ['0'.toUInt8] := rfl
      rw [hzero]
      exact .of_split (b := 8) rfl (List.forall_mem_singleton.mpr rfl) (List.cons_ne_nil _ _) rfl
    · obtain ⟨c, t, hdigits⟩ := List.exists_cons_of_ne_nil (digits_ne_nil (b := 10) (n := n))
      have hhead : (digits 10 n).head? = some c := by
        rw [hdigits]
        rfl
      have hc : c ≠ '0'.toUInt8 := by
        rintro rfl
        exact head_digits h10.1 h10.2 hn '0'.toUInt8 hhead rfl
      exact .of_split (split_of_head hhead hc) (isdigit_of_mem_digits h10.1 h10.2) digits_ne_nil
        (value_digits h10.1 h10.2)
  | oct =>
    obtain ⟨c, t, hdigits⟩ := List.exists_cons_of_ne_nil (digits_ne_nil (b := 8) (n := n))
    have hall : ∀ c ∈ digits 8 n, isdigit 8 c = true := isdigit_of_mem_digits h8.1 h8.2
    have hsplit : split (magnitude .oct n) = (8, '0'.toUInt8 :: digits 8 n) := by
      rw [magnitude, hdigits]
      exact split_oct (hall c (hdigits ▸ List.mem_cons_self))
    have hvalue : Numeral.value 8 ('0'.toUInt8 :: digits 8 n) = Numeral.value 8 (digits 8 n) := rfl
    exact .of_split hsplit (List.forall_mem_cons.mpr ⟨rfl, hall⟩) (List.cons_ne_nil _ _)
      (hvalue.trans (value_digits h8.1 h8.2))
  | hex =>
    obtain ⟨c, t, hdigits⟩ := List.exists_cons_of_ne_nil (digits_ne_nil (b := 16) (n := n))
    have hall : ∀ c ∈ digits 16 n, isdigit 16 c = true := isdigit_of_mem_digits h16.1 h16.2
    have hsplit : split (magnitude .hex n) = (16, digits 16 n) := by
      rw [magnitude, hdigits]
      exact split_hex (hall c (hdigits ▸ List.mem_cons_self))
    exact .of_split hsplit hall digits_ne_nil (value_digits h16.1 h16.2)

theorem magnitude_head : ∃ c t, magnitude base n = c :: t ∧ isdigit 16 c = true := by
  cases base with
  | dec =>
    obtain ⟨c, t, hdigits⟩ := List.exists_cons_of_ne_nil (digits_ne_nil (b := 10) (n := n))
    have hc : isdigit 10 c = true := isdigit_of_mem_digits (by decide) (by decide) c (hdigits ▸ List.mem_cons_self)
    have hlt : digit c < 10 := of_decide_eq_true hc
    exact ⟨c, t, hdigits, decide_eq_true (by omega)⟩
  | oct | hex => exact ⟨'0'.toUInt8, _, rfl, rfl⟩

theorem strtol_of_reads (hdrop : s.dropWhile isspace = s) (h : Reads (body s) n) :
    strtol isspace s = some (clamp (if negative s then -(n : Int) else n)) := by
  have htake : (split (body s)).2.takeWhile (isdigit (split (body s)).1) = (split (body s)).2 :=
    List.takeWhile_eq_self_iff.mpr h.digits
  rw [strtol, hdrop]
  dsimp only
  rw [htake, if_neg h.ne_nil, h.value]

/-- **A literal is read back**, and a number that does not fit is read as the nearest that does. -/
theorem strtol_literal (hspace : ∀ c, isdigit 16 c = true ∨ c = '-'.toUInt8 → isspace c = false) :
    strtol isspace (literal base v) = some (clamp v) := by
  obtain ⟨c, t, hhead, hc⟩ : ∃ c t, magnitude base v.natAbs = c :: t ∧ isdigit 16 c = true := magnitude_head
  by_cases hv : v < 0
  · have htext : literal base v = '-'.toUInt8 :: magnitude base v.natAbs := if_pos hv
    have hdrop : (literal base v).dropWhile isspace = literal base v := by
      rw [htext, List.dropWhile_cons_of_neg (by simp [hspace _ (.inr rfl)])]
    have hbody : body (literal base v) = magnitude base v.natAbs := by rw [htext]; rfl
    have hneg : negative (literal base v) = true := by rw [htext]; rfl
    rw [strtol_of_reads hdrop (hbody ▸ reads_magnitude), hneg, if_pos rfl]
    congr 2
    omega
  · have htext : literal base v = c :: t := (if_neg hv).trans hhead
    have hsign : c ≠ '-'.toUInt8 ∧ c ≠ '+'.toUInt8 := by
      constructor <;> rintro rfl <;> exact absurd hc (by decide)
    have hdrop : (literal base v).dropWhile isspace = literal base v := by
      rw [htext, List.dropWhile_cons_of_neg (by simp [hspace c (.inl hc)])]
    have hbody : body (literal base v) = magnitude base v.natAbs := by
      rw [htext, body, if_neg (by simp [hsign]), hhead]
    have hneg : negative (literal base v) = false := by
      rw [htext, negative]
      simp [hsign.1]
    rw [strtol_of_reads hdrop (hbody ▸ reads_magnitude), hneg, if_neg Bool.false_ne_true]
    congr 2
    omega

end Numeral
