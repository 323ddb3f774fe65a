import NetLibrary.Verify.Conf.Reads
import NetLibrary.Verify.Conf.Scanner

/-!
# What a line does

One lemma for each kind of line that `parseLine` tells apart, for a line without NUL and whatever the
buffer holds beyond it. Only one kind depends on what is there: after a `:` the value starts with the
byte after the next one, which is beyond the NUL if the `:` is the last byte of the line.
-/

namespace NetLibrary.Conf
open LineScanner

variable {sect key l t s e j : Bytes} {b c y : UInt8}

/-- The first byte of an entry. -/
def startsEntry (c : UInt8) : Prop :=
  c ≠ ';'.toUInt8 ∧ c ≠ '#'.toUInt8 ∧ c ≠ '['.toUInt8

instance : Decidable (startsEntry c) := by
  unfold startsEntry
  infer_instance

theorem parseLine_blank (hl : 0 ∉ l) (hblank : l.dropWhile isspace = []) :
    parseLine sect key (l ++ 0 :: j) = some { sect, key } := by
  simp [parseLine, peerChar_text hl, hblank]

theorem parseLine_comment (hl : 0 ∉ l) (hc : l.dropWhile isspace = c :: t)
    (hcomment : c = ';'.toUInt8 ∨ c = '#'.toUInt8) :
    parseLine sect key (l ++ 0 :: j) = some { sect, key } := by
  simp only [parseLine, peerChar_text hl, hc, List.headD_cons, Option.bind_eq_bind, Option.bind_some]
  rw [if_pos (hcomment.imp_right .inl)]
  rfl

/-- `[` makes the rest of the line the name of a section. -/
theorem parseLine_bracket (hl : 0 ∉ l) (hc : l.dropWhile isspace = '['.toUInt8 :: t) :
    parseLine sect key (l ++ 0 :: j) =
      (consumeTill { p := t ++ 0 :: j } ']'.toUInt8).bind fun r =>
        (match' r.2 ']'.toUInt8).bind fun ln => some { sect := r.1, key := [], err := ln.err } := by
  simp only [parseLine, peerChar_text hl, hc, List.headD_cons, Option.bind_eq_bind, Option.bind_some]
  rw [if_neg (by decide), if_pos trivial]
  rfl

theorem parseLine_section (hl : 0 ∉ l) (hc : l.dropWhile isspace = '['.toUInt8 :: t)
    (hs : ']'.toUInt8 ∉ s) (hsplit : t.dropWhile isspace = s ++ ']'.toUInt8 :: e) :
    parseLine sect key (l ++ 0 :: j) = some { sect := s.rdropWhile isspace, key := [] } := by
  have ht : 0 ∉ t := List.not_mem_of_not_mem_cons (hc ▸ not_mem_dropWhile hl)
  have he : 0 ∉ ']'.toUInt8 :: e := fun h =>
    not_mem_dropWhile ht (hsplit ▸ List.mem_append_right s h)
  rw [parseLine_bracket hl hc, consumeTill_found ht hs hsplit, Option.bind_some, match'_text he rfl]
  simp

theorem parseLine_section_open (hl : 0 ∉ l) (hc : l.dropWhile isspace = '['.toUInt8 :: t)
    (hopen : ']'.toUInt8 ∉ t) :
    parseLine sect key (l ++ 0 :: j) = some { sect := [], key := [], err := true } := by
  have ht : 0 ∉ t := List.not_mem_of_not_mem_cons (hc ▸ not_mem_dropWhile hl)
  rw [parseLine_bracket hl hc, consumeTill_missing ht hopen (by decide), Option.bind_some]
  cases ht' : t.dropWhile isspace with
  | nil => rfl
  | cons x t' =>
    have hx : x ≠ ']'.toUInt8 := by
      rintro rfl
      exact hopen (List.dropWhile_subset isspace (ht' ▸ List.mem_cons_self))
    rw [List.cons_append, match'_err, Option.bind_some, bne_iff_ne.mpr hx]

theorem parseLine_indented (hl : 0 ∉ l) (hb : l.head? = some b) (hsp : isspace b = true)
    (hc : l.dropWhile isspace = c :: t) (hstart : startsEntry c) :
    parseLine sect key (l ++ 0 :: j) =
      if key = [] then some { sect, key, err := true }
      else some { sect, key, value := some ((c :: t).rdropWhile isspace) } := by
  obtain ⟨hsemi, hhash, hbracket⟩ := hstart
  have ht : 0 ∉ c :: t := hc ▸ not_mem_dropWhile hl
  have hc0 : c ≠ 0 := (List.ne_of_not_mem_cons ht).symm
  have hns : isspace c = false := by
    have := List.head?_dropWhile_not isspace l
    rw [hc] at this
    exact this
  have hv : (c :: t).dropWhile isspace = c :: t := List.dropWhile_cons_of_neg (by simp [hns])
  simp only [parseLine, peerChar_text hl, hc, List.headD_cons, Option.bind_eq_bind, Option.bind_some,
    List.head?_append, hb, Option.some_or]
  rw [if_neg (by simp [hsemi, hhash, hc0]), if_neg hbracket, if_pos hsp]
  split
  · rfl
  · rw [consumeTill_zero ht, hv]
    rfl

/-! ## Entries -/

theorem parseLine_entry (hl : 0 ∉ c :: t) (hns : isspace c = false) (hstart : startsEntry c) :
    parseLine sect key (c :: t ++ 0 :: j) = parseEntry sect { p := c :: t ++ 0 :: j } := by
  obtain ⟨hsemi, hhash, hbracket⟩ := hstart
  have hc0 : c ≠ 0 := (List.ne_of_not_mem_cons hl).symm
  simp only [parseLine, peerChar_cons hl hns, Option.bind_eq_bind, Option.bind_some]
  rw [if_neg (by simp [hsemi, hhash, hc0]), if_neg hbracket, List.cons_append, List.head?_cons,
    Option.bind_some, if_neg (by simp [hns])]

/-- The value of an entry: from the first byte that is not a blank to the next one that ends it. -/
def valueOf (t : Bytes) : Bytes := (t.dropWhile isspace).takeWhile (! endsValue ·)

theorem parseEntry_eq (hl : 0 ∉ l) (hs : '='.toUInt8 ∉ s)
    (hsplit : l.dropWhile isspace = s ++ '='.toUInt8 :: e) :
    parseEntry sect { p := l ++ 0 :: j } =
      some { sect, key := s.rdropWhile isspace, value := some (valueOf e) } := by
  have he : 0 ∉ '='.toUInt8 :: e := fun h =>
    not_mem_dropWhile hl (hsplit ▸ List.mem_append_right s h)
  have hvalue : consumeTillEnd (skip { p := '='.toUInt8 :: e ++ 0 :: j } 1) = _ :=
    consumeTillEnd_text (List.not_mem_of_not_mem_cons he)
  simp only [parseEntry, consumeTill_found hl hs hsplit, Option.bind_eq_bind, Option.bind_some,
    peerChar_cons he (by decide), if_true, pure]
  rw [hvalue]
  rfl

/-- Without `=` the key ends at the first `:`, and the byte after that is skipped as well. -/
theorem parseEntry_colon (hl : 0 ∉ l) (heq : '='.toUInt8 ∉ l) (hs : ':'.toUInt8 ∉ s)
    (hsplit : l.dropWhile isspace = s ++ ':'.toUInt8 :: e) :
    parseEntry sect { p := l ++ 0 :: j } =
      (consumeTillEnd { p := (e ++ 0 :: j).drop 1 }).map fun r =>
        { sect, key := s.rdropWhile isspace, value := some r.1 } := by
  have he : 0 ∉ ':'.toUInt8 :: e := fun h =>
    not_mem_dropWhile hl (hsplit ▸ List.mem_append_right s h)
  have hmatch : match' { p := ':'.toUInt8 :: e ++ 0 :: j } ':'.toUInt8 = some { p := e ++ 0 :: j } := by
    rw [match'_text he rfl]
    simp
  obtain ⟨x, l', hx⟩ : ∃ x l', l.dropWhile isspace = x :: l' := by
    cases hd : l.dropWhile isspace with
    | nil => simp [hd] at hsplit
    | cons x l' => exact ⟨x, l', rfl⟩
  have hxeq : x ≠ '='.toUInt8 := by
    rintro rfl
    exact heq (List.dropWhile_subset isspace (hx ▸ List.mem_cons_self))
  simp only [parseEntry, consumeTill_missing hl heq (by decide), Option.bind_eq_bind, Option.bind_some,
    hx, List.cons_append, peerChar_err, if_neg hxeq, consumeTill_found hl hs hsplit]
  rw [← List.cons_append, hmatch]
  simp only [Option.bind_some, pure, skip]
  cases consumeTillEnd { p := (e ++ 0 :: j).drop 1 } <;> rfl

/-- A line with neither is an error. -/
theorem parseEntry_error (hl : 0 ∉ c :: t) (hns : isspace c = false) (heq : '='.toUInt8 ∉ c :: t)
    (hcolon : ':'.toUInt8 ∉ c :: t) : parseEntry sect { p := c :: t ++ 0 :: j } =
      some { sect, key := [], err := true, value := some [] } := by
  have hc : (c :: t).dropWhile isspace = c :: t := List.dropWhile_cons_of_neg (by simp [hns])
  have hceq : c ≠ '='.toUInt8 := (List.ne_of_not_mem_cons heq).symm
  have hccolon : c ≠ ':'.toUInt8 := (List.ne_of_not_mem_cons hcolon).symm
  simp only [parseEntry, consumeTill_missing hl heq (by decide), consumeTill_missing hl hcolon (by decide),
    hc, Option.bind_eq_bind, Option.bind_some]
  simp only [List.cons_append, peerChar_err, Option.bind_some, if_neg hceq, match'_err,
    bne_iff_ne.mpr hccolon, pure, skip, consumeTillEnd_err]

/-! ## What a line depends on -/

/-- An entry without `=` whose first `:` is its last byte. -/
def LooseColon (l : Bytes) : Prop :=
  (∃ c ∈ l.head?, isspace c = false ∧ startsEntry c) ∧ '='.toUInt8 ∉ l ∧
    ∃ s, ':'.toUInt8 ∉ s ∧ l = s ++ [':'.toUInt8]

/-- What an entry does does not depend on the rest of the buffer, unless it is a `LooseColon`. -/
theorem parseEntry_ownText (hl : 0 ∉ c :: t) (hns : isspace c = false) (hstart : startsEntry c)
    (hloose : ¬LooseColon (c :: t)) :
    ∃ r, ∀ j, parseEntry sect { p := c :: t ++ 0 :: j } = some r := by
  have hc : (c :: t).dropWhile isspace = c :: t := List.dropWhile_cons_of_neg (by simp [hns])
  by_cases heq : '='.toUInt8 ∈ c :: t
  · obtain ⟨s, e, hsplit, hs⟩ := List.eq_append_cons_of_mem heq
    exact ⟨_, fun j => parseEntry_eq hl hs (hc.trans hsplit)⟩
  by_cases hcolon : ':'.toUInt8 ∈ c :: t
  · obtain ⟨s, e, hsplit, hs⟩ := List.eq_append_cons_of_mem hcolon
    cases e with
    | nil => exact absurd ⟨⟨c, rfl, hns, hstart⟩, heq, s, hs, hsplit⟩ hloose
    | cons y e =>
      have he : 0 ∉ e := by
        intro h
        rw [hsplit] at hl
        exact hl (List.mem_append_right s (.tail _ (.tail _ h)))
      refine ⟨{ sect, key := s.rdropWhile isspace, value := some (valueOf e) }, fun j => ?_⟩
      rw [parseEntry_colon hl heq hs (hc.trans hsplit), List.cons_append, List.drop_one, List.tail_cons,
        consumeTillEnd_text he]
      rfl
  · exact ⟨_, fun j => parseEntry_error hl hns heq hcolon⟩

/-- A line that is no `LooseColon` is parsed from its own text. -/
theorem parseLine_ownText (hl : 0 ∉ l) (hloose : ¬LooseColon l) :
    ∃ r, ∀ j, parseLine sect key (l ++ 0 :: j) = some r := by
  cases hc : l.dropWhile isspace with
  | nil => exact ⟨_, fun j => parseLine_blank hl hc⟩
  | cons c t =>
    by_cases hcomment : c = ';'.toUInt8 ∨ c = '#'.toUInt8
    · exact ⟨_, fun j => parseLine_comment hl hc hcomment⟩
    by_cases hbracket : c = '['.toUInt8
    · subst hbracket
      by_cases hclose : ']'.toUInt8 ∈ t.dropWhile isspace
      · obtain ⟨s, e, hsplit, hs⟩ := List.eq_append_cons_of_mem hclose
        exact ⟨_, fun j => parseLine_section hl hc hs hsplit⟩
      · refine ⟨_, fun j => parseLine_section_open hl hc fun hmem => hclose ?_⟩
        obtain ⟨s, e, rfl, hs⟩ := List.eq_append_cons_of_mem hmem
        rw [List.dropWhile_append]
        split <;> simp [show isspace ']'.toUInt8 = false by decide]
    have hstart : startsEntry c := ⟨mt .inl hcomment, mt .inr hcomment, hbracket⟩
    cases l with
    | nil => cases hc
    | cons b l =>
      cases hsp : isspace b with
      | true =>
        refine ⟨if key = [] then { sect, key, err := true }
          else { sect, key, value := some ((c :: t).rdropWhile isspace) }, fun j => ?_⟩
        rw [parseLine_indented hl rfl hsp hc hstart]
        split <;> rfl
      | false =>
        rw [List.dropWhile_cons_of_neg (by simp [hsp])] at hc
        cases hc
        obtain ⟨r, hr⟩ : ∃ r, ∀ j, parseEntry sect _ = some r := parseEntry_ownText hl hsp hstart hloose
        exact ⟨r, fun j => (parseLine_entry hl hsp hstart).trans (hr j)⟩

/-- A `LooseColon` makes the scanner read the byte after the NUL. -/
theorem parseLine_looseColon (hl : 0 ∉ l) (hloose : LooseColon l) :
    parseLine sect key (l ++ [0]) = none := by
  obtain ⟨⟨c, hhead, hns, hstart⟩, heq, s, hs, hsplit⟩ := hloose
  cases l with
  | nil => cases hhead
  | cons b l =>
    cases hhead
    have hc : (c :: l).dropWhile isspace = c :: l := List.dropWhile_cons_of_neg (by simp [hns])
    rw [parseLine_entry hl hns hstart, parseEntry_colon hl heq hs (hc.trans hsplit)]
    rfl

/-- **Which lines are parsed from their own text.** Of a file without NUL, a line that `fgets` reads is
parsed without a read beyond its NUL, and to the same result whatever lies there, exactly if it is not an
entry without `=` that ends in its first `:`. -/
theorem ownText_iff {file : Bytes} (hfile : 0 ∉ file) (hl : l ∈ reads [] file) (sect key : Bytes) :
    (parseLine sect key (l ++ [0]) ≠ none ∧
      ∀ j₁ j₂, parseLine sect key (l ++ 0 :: j₁) = parseLine sect key (l ++ 0 :: j₂)) ↔
      ¬LooseColon l := by
  have hl0 : 0 ∉ l := fun h => (mem_reads hl 0 h).elim List.not_mem_nil hfile
  constructor
  · rintro ⟨hread, -⟩ hloose
    exact hread (parseLine_looseColon hl0 hloose)
  · intro hloose
    obtain ⟨r, hr⟩ : ∃ r, ∀ j, parseLine sect key _ = some r := parseLine_ownText hl0 hloose
    refine ⟨?_, fun j₁ j₂ => (hr j₁).trans (hr j₂).symm⟩
    rw [hr []]
    exact Option.some_ne_none r

/-- A line `k=v`. -/
def entry : Bytes := ['k', '=', 'v', '\n'].map Char.toUInt8

theorem ownText_iff_entry : parseLine [] [] (entry ++ [0]) ≠ none ∧
    ∀ j₁ j₂, parseLine [] [] (entry ++ 0 :: j₁) = parseLine [] [] (entry ++ 0 :: j₂) :=
  have hread : entry ∈ reads [] entry := by decide
  (ownText_iff (by decide) hread [] []).mpr fun h => h.2.1 (by decide)

/-- A last line `k:` without its newline. -/
def looseEntry : Bytes := ['k', ':'].map Char.toUInt8

theorem not_ownText : 0 ∉ looseEntry ∧ looseEntry ∈ reads [] looseEntry ∧
    parseLine [] [] (looseEntry ++ [0]) = none ∧
    parseLine [] [] (looseEntry ++ [0, 'x'.toUInt8, 0]) ≠
      parseLine [] [] (looseEntry ++ [0, 'y'.toUInt8, 0]) := by
  decide

end NetLibrary.Conf
