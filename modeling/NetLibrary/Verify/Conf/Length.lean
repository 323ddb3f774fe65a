import NetLibrary.Verify.Conf.Entries
import NetLibrary.Verify.Conf.Lines

/-!
# Long lines

A line that does not fit into the line buffer is read in parts, and `parse` looks at each of them as at a line of
its own: it counts them, and takes them for sections, entries and comments. `parseUnbounded` is the same loop with
a line buffer that is long enough for every line.
-/

namespace NetLibrary.Conf
open Records

variable {values : Values} {sect key buf file l t cur : Bytes} {bs ls : List Bytes}

/-- The lines of a file, each with its newline. -/
def fileLines (file : Bytes) : List Bytes := records isNewline [] file

/-- `parse`, with `fgets` reading a whole line each time. -/
def parseUnbounded (values : Values) (buf : Bytes) (file : Option Bytes) : Option (Values × Int) :=
  match file with
  | none => some (values, -1)
  | some file => do
    let s ← loop { values } buf (fileLines file)
    return (s.values, if s.err then s.lineno else 0)

/-- The lines that the loop looks at: up to the first one that is rejected. -/
def untilRejected (sect key buf : Bytes) : List Bytes → List Bytes
  | [] => []
  | read :: reads => read ::
    match parseLine sect key (fill buf read) with
    | none => []
    | some l => if l.err then [] else untilRejected l.sect l.key (fill buf read) reads

theorem untilRejected_sublist : (untilRejected sect key buf ls).Sublist ls := by
  induction ls generalizing sect key buf with
  | nil => exact .slnil
  | cons read ls ih =>
    rw [untilRejected]
    refine .cons_cons read ?_
    split
    · exact List.nil_sublist ls
    · split
      · exact List.nil_sublist ls
      · exact ih

/-- The loop stops at a rejected line, whatever follows. -/
theorem loop_err {s : State} (hs : s.err = true) : loop s buf ls = some s := by
  cases ls with
  | nil => rfl
  | cons => rw [loop, if_pos hs]

/-- Where the lines fit, what is read are the lines, and the loop does not see the difference. -/
theorem loop_cut {s : State} (hcut : Cut (maxSize - 1) bs ls) (hs : s.err = false)
    (hfit : ∀ l ∈ untilRejected s.sect s.key buf ls, l.length ≤ maxSize - 1) :
    untilRejected s.sect s.key buf bs = untilRejected s.sect s.key buf ls ∧ loop s buf bs = loop s buf ls := by
  induction hcut generalizing s buf with
  | nil => exact ⟨rfl, rfl⟩
  | long _ hlong => exact absurd (hfit _ List.mem_cons_self) (Nat.not_le.mpr hlong)
  | @fits l bs ls _ _ ih =>
    rw [untilRejected] at hfit
    obtain ⟨-, hfit⟩ := List.forall_mem_cons.mp hfit
    rw [untilRejected, untilRejected, loop, loop, hs, if_neg Bool.false_ne_true, if_neg Bool.false_ne_true]
    cases hline : parseLine s.sect s.key (fill buf l) with
    | none => exact ⟨rfl, rfl⟩
    | some r =>
      rw [hline] at hfit
      cases herr : r.err with
      | true =>
        have hstop : (s.step r).err = true := herr
        simp only [herr, if_true]
        exact ⟨trivial, (loop_err hstop).trans (loop_err hstop).symm⟩
      | false =>
        simp only [herr, Bool.false_eq_true, if_false] at hfit ⊢
        obtain ⟨hread, hloop⟩ := ih (s := s.step r) herr hfit
        exact ⟨congrArg (l :: ·) hread, hloop⟩

/-- Each line of the file is one line for `parse`, and what comes out is what the loop makes of the lines. -/
def LineByLine (values : Values) (buf file : Bytes) : Prop :=
  untilRejected [] [] buf (reads [] file) = untilRejected [] [] buf (fileLines file) ∧
    parse values buf (some file) = parseUnbounded values buf (some file)

/-- **`parse` reads a file line by line exactly if no line up to the first rejected one is longer than the line
buffer.** -/
theorem parse_lineByLine_iff (values : Values) (buf file : Bytes) :
    LineByLine values buf file ↔ ∀ l ∈ untilRejected [] [] buf (fileLines file), l.length ≤ maxSize - 1 := by
  have hpos : ([] : Bytes).length < maxSize - 1 := by decide
  rw [LineByLine, parse, parseUnbounded, reads_eq, fileLines]
  constructor
  · rintro ⟨hread, -⟩ l hl
    rw [← hread] at hl
    exact length_of_mem_blocks hpos (untilRejected_sublist.subset hl)
  · intro hfit
    obtain ⟨hread, hloop⟩ := loop_cut (s := { values }) (cut_blocks hpos) rfl hfit
    exact ⟨hread, by rw [hloop]⟩

theorem loop_comment {s : State} (hs : s.err = false) (ht : 0 ∉ '#'.toUInt8 :: t) :
    loop s buf (('#'.toUInt8 :: t) :: ls) =
      loop { s with lineno := s.lineno + 1, err := false } (fill buf ('#'.toUInt8 :: t)) ls := by
  have hline : parseLine s.sect s.key (fill buf ('#'.toUInt8 :: t)) = some { sect := s.sect, key := s.key } :=
    parseLine_comment ht (List.dropWhile_cons_of_neg (by decide)) (.inr rfl)
  rw [loop, if_neg (by simp [hs]), hline]
  rfl

/-- The text of a comment that fills the line buffer. -/
def comment : Bytes := List.replicate 1022 'x'.toUInt8

/-- An entry behind it, on the same line. -/
def longComment : Bytes := '#'.toUInt8 :: (comment ++ entry)

theorem of_mem_comment {c : UInt8} (hc : c ∈ '#'.toUInt8 :: comment) : isNewline c = false ∧ c ≠ 0 := by
  rcases List.mem_cons.mp hc with rfl | hc
  · decide
  · rw [List.eq_of_mem_replicate hc]
    decide

theorem zero_not_mem_longComment : 0 ∉ longComment := by
  intro h
  rcases List.mem_append.mp (List.cons_append ▸ h : 0 ∈ ('#'.toUInt8 :: comment) ++ entry) with h | h
  · exact (of_mem_comment h).2 rfl
  · revert h
    decide

theorem fileLines_longComment : fileLines longComment = [longComment] := by
  have hentry : (['k', '=', 'v'].map Char.toUInt8).all (! isNewline ·) = true := by decide
  have htext : ∀ c ∈ '#'.toUInt8 :: comment ++ ['k', '=', 'v'].map Char.toUInt8, isNewline c = false := by
    intro c hc
    rcases List.mem_append.mp hc with hc | hc
    · exact (of_mem_comment hc).1
    · simpa using List.all_eq_true.mp hentry c hc
  have hend : isNewline '\n'.toUInt8 = true := by decide
  have hline : longComment = '#'.toUInt8 :: comment ++ ['k', '=', 'v'].map Char.toUInt8 ++ ['\n'.toUInt8] := by
    rw [List.append_assoc]
    rfl
  rw [fileLines, hline, records_append htext hend, List.nil_append, ← hline]
  rfl

/-- For the line-by-line algorithm the line is a comment. -/
theorem parseUnbounded_longComment : parseUnbounded ∅ [] (some longComment) = some (∅, 0) := by
  rw [parseUnbounded, fileLines_longComment, longComment, loop_comment rfl zero_not_mem_longComment]
  rfl

/-- For `parse` the second part of the line is an entry. -/
theorem parse_longComment :
    parse ∅ [] (some longComment) = some (push ∅ ['.'.toUInt8, 'k'.toUInt8] ['v'.toUInt8], 0) := by
  have hfull : ∀ c ∈ '#'.toUInt8 :: comment, isNewline c = false := fun c hc => (of_mem_comment hc).1
  have hlen : ([] : Bytes).length + ('#'.toUInt8 :: comment).length = maxSize - 1 := by
    rw [List.length_cons, comment, List.length_replicate]
    rfl
  have hreads : reads [] longComment = ['#'.toUInt8 :: comment, entry] := by
    rw [reads_eq, longComment, ← List.cons_append, blocks_full hfull (List.cons_ne_nil _ _) hlen, ← reads_eq]
    exact congrArg _ (by decide)
  have h0 : 0 ∉ '#'.toUInt8 :: comment := fun h => (of_mem_comment h).2 rfl
  have hentry (j : Bytes) : parseLine [] [] (entry ++ 0 :: j) =
      some { sect := [], key := ['k'.toUInt8], value := some ['v'.toUInt8] } := rfl
  rw [parse, hreads, loop_comment rfl h0, loop, if_neg Bool.false_ne_true, fill, hentry]
  rfl

theorem not_lineByLine : ¬LineByLine ∅ [] longComment := by
  rintro ⟨-, hparse⟩
  rw [parse_longComment, parseUnbounded_longComment] at hparse
  exact push_ne (Prod.mk.inj (Option.some.inj hparse)).1

end NetLibrary.Conf
