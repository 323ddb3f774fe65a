import NetLibrary.Verify.Conf.Format

/-!
# Numbers and truth values

What is written at the end of a file is what `getInteger` and `getBoolean` then return for this key, whatever the
file held under it before, and for every other key they return what they did.
-/

namespace NetLibrary.Conf

variable {values values' : Values} {sect name before after t : Bytes} {is js : List Item}
variable {o b : Bool} {n : Int}

/-! ## What the accessors depend on -/

theorem getInteger_eq : getInteger values sect name n =
    (Numeral.strtol isspace (cStr ((getStrings values sect name).getLastD []))).getD n := by
  rw [getInteger, get_eq, List.getLastD_eq_getLast?]

theorem getBoolean_eq : getBoolean values sect name b =
    if ((getStrings values sect name).getLastD []).map tolower ∈ words true then true
    else if ((getStrings values sect name).getLastD []).map tolower ∈ words false then false
    else b := by
  rw [getBoolean, get_eq, List.getLastD_eq_getLast?]

theorem lt_of_isspace {c : UInt8} (h : isspace c = true) : c < '0'.toUInt8 := by
  rw [isspace, Bool.or_eq_true, Bool.and_eq_true, decide_eq_true_iff, decide_eq_true_iff, decide_eq_true_iff] at h
  rcases h with rfl | ⟨-, hle⟩
  · decide
  · exact UInt8.lt_of_le_of_lt hle (by decide)

theorem not_isspace {c : UInt8} (h : Numeral.isdigit 16 c = true ∨ c = '-'.toUInt8) : isspace c = false := by
  rcases h with hdigit | rfl
  · by_contra hspace
    rw [Numeral.isdigit, Numeral.digit_of_lt (lt_of_isspace (Bool.not_eq_false _ ▸ hspace))] at hdigit
    cases hdigit
  · rfl

/-! ## A file with one more entry -/

theorem Valid.append_left (h : Valid o (is ++ js)) : Valid o is := by
  induction is generalizing o with
  | nil => trivial
  | cons i is ih =>
    obtain ⟨hi, hp, hlen, his⟩ := h
    exact ⟨hi, hp, hlen, ih his⟩

theorem Valid.append_right (h : Valid o (is ++ js)) : ∃ o', Valid o' js := by
  induction is generalizing o with
  | nil => exact ⟨o, h⟩
  | cons i is ih =>
    obtain ⟨-, -, -, his⟩ := h
    exact ih his

/-- A section with a single entry, at the end of a file. -/
def setting (sect name before after t : Bytes) : List Item := [.sect sect, .entry name before after t]

theorem entriesOf_append {s k : Bytes} : entriesOf s k (is ++ setting sect name before after t) =
    entriesOf s k is ++ [⟨sect, name, t⟩] := by
  induction is generalizing s k with
  | nil => rfl
  | cons i is ih => rw [List.cons_append, entriesOf, entriesOf, ih, List.append_assoc]

theorem getStrings_found (ls : List Entry) : getStrings (pushAll ∅ ls) sect name = found sect name ls := by
  rw [getStrings_pushAll]
  rfl

/-- The map of a file in the format. -/
theorem parse_render {newline : Bool} (h : Valid false is) (buf : Bytes) :
    parse ∅ buf (some (render newline is)) = some (pushAll ∅ (entriesOf [] [] is), 0) := by
  obtain ⟨ls, hls, herr, hentries⟩ : ∃ ls, lines [] [] buf (reads [] (render newline is)) = some ls ∧ _ :=
    lines_render h fun h => absurd h Bool.false_ne_true
  rw [← hentries]
  exact parse_eq_zero_iff.mpr ⟨ls, hls, herr, rfl⟩

theorem found_concat {es : List Entry} {e : Entry} : found sect name (es ++ [e]) =
    found sect name es ++ if makeKey e.sect e.key = makeKey sect name then [e.value] else [] := by
  rw [found, found, List.filter_append, List.map_append]
  by_cases hk : makeKey e.sect e.key = makeKey sect name
  · rw [if_pos hk, List.filter_cons_of_pos (by simpa using hk)]
    rfl
  · rw [if_neg hk, List.filter_cons_of_neg (by simpa using hk)]
    rfl

/-- The value of the last entry has no NUL. -/
theorem not_mem_value (h : Valid o (is ++ setting sect name before after t)) : 0 ∉ t := by
  obtain ⟨o', -, -, -, -, hplain, -⟩ := h.append_right
  intro hmem
  apply hplain.1
  simp only [Item.text, List.mem_append, List.mem_cons]
  exact .inr (.inr (.inr hmem))

theorem cStr_eq (h : 0 ∉ t) : cStr t = t := by
  refine List.takeWhile_eq_self_iff.mpr fun c hc => decide_eq_true ?_
  rintro rfl
  exact h hc

theorem getBoolean_of_mem (hlast : (getStrings values sect name).getLastD [] = t) (ht : t.map tolower ∈ words b)
    (d : Bool) : getBoolean values sect name d = b := by
  rw [getBoolean_eq, hlast]
  cases b with
  | true => rw [if_pos ht]
  | false =>
    have hdisjoint : ∀ w ∈ words false, w ∉ words true := by decide
    rw [if_neg (hdisjoint _ ht), if_pos ht]

/-- **What is put into a file is got from it**: a number as a literal in any base, or a truth value in any of its
words. -/
theorem put_get (newline : Bool) (is : List Item) (sect name before after t buf buf' : Bytes)
    (h : Valid false (is ++ setting sect name before after t)) : ∃ values values',
    parse ∅ buf (some (render true is)) = some (values, 0) ∧
    parse ∅ buf' (some (render newline (is ++ setting sect name before after t))) = some (values', 0) ∧
    ∀ sect' name',
      (makeKey sect' name' = makeKey sect name →
        (∀ base v, t = Numeral.literal base v → ∀ d, getInteger values' sect' name' d = Numeral.clamp v) ∧
        ∀ b, t.map tolower ∈ words b → ∀ d, getBoolean values' sect' name' d = b) ∧
      (makeKey sect' name' ≠ makeKey sect name →
        (∀ d, getInteger values' sect' name' d = getInteger values sect' name' d) ∧
        ∀ d, getBoolean values' sect' name' d = getBoolean values sect' name' d) := by
  refine ⟨_, _, parse_render h.append_left buf, parse_render h buf', fun sect' name' => ?_⟩
  have hstrings : getStrings (pushAll ∅ _) sect' name' = found sect' name' _ :=
    getStrings_found (entriesOf [] [] (is ++ setting sect name before after t))
  rw [entriesOf_append, found_concat, ← getStrings_found] at hstrings
  rw [entriesOf_append]
  generalize pushAll ∅ (entriesOf [] [] is ++ [⟨sect, name, t⟩]) = values' at hstrings ⊢
  generalize pushAll ∅ (entriesOf [] [] is) = values at hstrings ⊢
  constructor
  · intro hkey
    have hlast : (getStrings values' sect' name').getLastD [] = t := by
      rw [hstrings, if_pos hkey.symm, List.getLastD_concat]
    refine ⟨fun base v ht d => ?_, fun b ht d => getBoolean_of_mem hlast ht d⟩
    rw [getInteger_eq, hlast, cStr_eq (not_mem_value h), ht, Numeral.strtol_literal fun _ => not_isspace,
      Option.getD_some]
  · intro hkey
    rw [if_neg (Ne.symm hkey), List.append_nil] at hstrings
    refine ⟨fun d => ?_, fun d => ?_⟩
    · rw [getInteger_eq, getInteger_eq, hstrings]
    · rw [getBoolean_eq, getBoolean_eq, hstrings]

/-- A number below a section, read under a key in capital letters. -/
theorem put_get_hex : ∃ values', parse ∅ [] (some (render false (sample ++
      setting ['n'.toUInt8] ['p'.toUInt8] [' '.toUInt8] [9] (Numeral.literal .hex (-255))))) = some (values', 0) ∧
    getInteger values' ['N'.toUInt8] ['P'.toUInt8] 0 = -255 := by
  obtain ⟨_, values', -, hparse, hget⟩ := put_get false sample ['n'.toUInt8] ['p'.toUInt8] [' '.toUInt8] [9]
    (Numeral.literal .hex (-255)) [] [] (by decide)
  exact ⟨values', hparse, ((hget _ _).1 (by decide)).1 .hex (-255) rfl 0⟩

end NetLibrary.Conf
