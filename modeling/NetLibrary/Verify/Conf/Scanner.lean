import NetLibrary.Model.Conf

/-!
# The scanner on the text of a line

A line lies in the buffer as `t ++ 0 :: j`: its text, the NUL, and what the buffer holds beyond that. As
long as the cursor is in the text or at the NUL, a scanner's function does to `t` what is stated here
and leaves `j` alone.
-/

namespace NetLibrary.LineScanner

variable {t j s e : Bytes} {c x : UInt8} {stop : UInt8 → Bool}

theorem spaces_text (ht : 0 ∉ t) : spaces (t ++ 0 :: j) = some (t.dropWhile isspace ++ 0 :: j) := by
  induction t with
  | nil => rfl
  | cons c t ih =>
    obtain ⟨hc, ht⟩ := List.ne_and_not_mem_of_not_mem_cons ht
    rw [List.cons_append, spaces, List.dropWhile_cons]
    cases hsp : isspace c with
    | true => rw [if_pos ⟨hc.symm, rfl⟩, if_pos rfl, ih ht]
    | false => rw [if_neg (fun h => Bool.false_ne_true h.2), if_neg Bool.false_ne_true]; rfl

theorem till_text (ht : 0 ∉ t) : till stop (t ++ 0 :: j) =
    some (t.takeWhile (! stop ·), t.dropWhile (! stop ·) ++ 0 :: j) := by
  induction t with
  | nil => rfl
  | cons c t ih =>
    obtain ⟨hc, ht⟩ := List.ne_and_not_mem_of_not_mem_cons ht
    rw [List.cons_append, till, List.takeWhile_cons, List.dropWhile_cons]
    cases hstop : stop c with
    | true => rw [if_neg (fun h => Bool.false_ne_true h.2.symm)]; rfl
    | false => rw [if_pos ⟨hc.symm, rfl⟩, ih ht]; rfl

theorem skipSpace_text (ht : 0 ∉ t) : skipSpace { p := t ++ 0 :: j } =
    some { p := t.dropWhile isspace ++ 0 :: j } := by
  simp only [skipSpace, Bool.false_eq_true, if_false, spaces_text ht, Option.map_some]

theorem not_mem_dropWhile {p : UInt8 → Bool} (ht : 0 ∉ t) : 0 ∉ t.dropWhile p :=
  fun h => ht (List.dropWhile_subset p h)

theorem peerChar_text (ht : 0 ∉ t) : peerChar { p := t ++ 0 :: j } =
    some ((t.dropWhile isspace).headD 0, { p := t.dropWhile isspace ++ 0 :: j }) := by
  rw [peerChar, skipSpace_text ht]
  cases t.dropWhile isspace <;> rfl

theorem peerChar_cons (ht : 0 ∉ c :: t) (hns : isspace c = false) :
    peerChar { p := c :: t ++ 0 :: j } = some (c, { p := c :: t ++ 0 :: j }) := by
  rw [peerChar_text ht, List.dropWhile_cons_of_neg (by simp [hns])]
  rfl

/-- A scanner that has failed stays where it is. -/
theorem peerChar_err : peerChar { p := x :: s, err := true } = some (x, { p := x :: s, err := true }) :=
  rfl

theorem match'_text (ht : 0 ∉ t) (hx : t.dropWhile isspace = x :: e) :
    match' { p := t ++ 0 :: j } c = some { p := e ++ 0 :: j, err := x != c } := by
  rw [match', skipSpace_text ht, hx]
  rfl

theorem match'_err : match' { p := x :: s, err := true } c = some { p := s, err := x != c } := rfl

theorem consumeTill_text (ht : 0 ∉ t)
    (htill : till (· = c) (t.dropWhile isspace ++ 0 :: j) = some (s, x :: e)) :
    consumeTill { p := t ++ 0 :: j } c =
      if x = c then some (s.rdropWhile isspace, { p := x :: e })
      else some ([], { p := t.dropWhile isspace ++ 0 :: j, err := true }) := by
  rw [consumeTill, skipSpace_text ht]
  simp only [Option.bind_eq_bind, Option.bind_some, Bool.false_eq_true, if_false]
  rw [htill]
  simp only [Option.bind_some, List.head?_cons, ne_eq, ite_not]
  rfl

theorem not_stop (hs : c ∉ s) : ∀ x ∈ s, (! decide (x = c)) = true := by
  intro x hx
  rw [Bool.not_eq_true', decide_eq_false_iff_not]
  exact ne_of_mem_of_not_mem hx hs

/-- The text before the first `c`, without the blanks around it. -/
theorem consumeTill_found (ht : 0 ∉ t) (hs : c ∉ s) (hsplit : t.dropWhile isspace = s ++ c :: e) :
    consumeTill { p := t ++ 0 :: j } c =
      some (s.rdropWhile isspace, { p := c :: e ++ 0 :: j }) := by
  have htill : till (· = c) (t.dropWhile isspace ++ 0 :: j) = some (s, c :: e ++ 0 :: j) := by
    rw [till_text (not_mem_dropWhile ht), hsplit, List.takeWhile_append_of_pos (not_stop hs),
      List.dropWhile_append_of_pos (not_stop hs), List.takeWhile_cons_of_neg (by simp),
      List.dropWhile_cons_of_neg (by simp), List.append_nil]
  rw [consumeTill_text ht htill, if_pos rfl]
  rfl

/-- Without `c` the text goes up to the NUL. -/
theorem till_missing (ht : 0 ∉ t) (hc : c ∉ t) : till (· = c) (t ++ 0 :: j) = some (t, 0 :: j) := by
  rw [till_text ht, List.takeWhile_eq_self_iff.mpr (not_stop hc),
    List.dropWhile_eq_nil_iff.mpr (not_stop hc), List.nil_append]

theorem consumeTill_missing (ht : 0 ∉ t) (hc : c ∉ t) (hc0 : c ≠ 0) :
    consumeTill { p := t ++ 0 :: j } c =
      some ([], { p := t.dropWhile isspace ++ 0 :: j, err := true }) := by
  have hc' : c ∉ t.dropWhile isspace := fun h => hc (List.dropWhile_subset _ h)
  rw [consumeTill_text ht (till_missing (not_mem_dropWhile ht) hc'), if_neg hc0.symm]

/-- The rest of the line, without the blanks around it. -/
theorem consumeTill_zero (ht : 0 ∉ t) : consumeTill { p := t ++ 0 :: j } 0 =
    some ((t.dropWhile isspace).rdropWhile isspace, { p := 0 :: j }) := by
  have ht' := not_mem_dropWhile (p := isspace) ht
  rw [consumeTill_text ht (till_missing ht' ht'), if_pos rfl]

/-- Where a value without quotes ends. -/
def endsValue (c : UInt8) : Bool := c = '#'.toUInt8 || c = ';'.toUInt8 || isspace c

theorem endsValue_of_isspace (h : isspace c) : endsValue c = true := by
  rw [endsValue, h, Bool.or_true]

theorem consumeTillEnd_text (ht : 0 ∉ t) : consumeTillEnd { p := t ++ 0 :: j } =
    some ((t.dropWhile isspace).takeWhile (! endsValue ·),
      { p := (t.dropWhile isspace).dropWhile (! endsValue ·) ++ 0 :: j }) := by
  have hstrip : ((t.dropWhile isspace).takeWhile (! endsValue ·)).rdropWhile isspace =
      (t.dropWhile isspace).takeWhile (! endsValue ·) := by
    apply List.rdropWhile_eq_self_iff.mpr
    intro hne hsp
    have hlast := List.mem_takeWhile_imp (List.getLast_mem hne)
    rw [endsValue_of_isspace hsp] at hlast
    cases hlast
  have htill : till endsValue (t.dropWhile isspace ++ 0 :: j) = _ := till_text (not_mem_dropWhile ht)
  simp only [consumeTillEnd, skipSpace_text ht, Option.bind_eq_bind, Option.bind_some, Bool.false_eq_true,
    if_false]
  change (till endsValue _).bind _ = _
  rw [htill, Option.bind_some, rstrip, if_neg Bool.false_ne_true, hstrip]
  rfl

theorem consumeTillEnd_err : consumeTillEnd { p := s, err := true } = some ([], { p := s, err := true }) :=
  rfl

end NetLibrary.LineScanner
