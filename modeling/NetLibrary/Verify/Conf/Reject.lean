import NetLibrary.Verify.Conf.Lines
import NetLibrary.Verify.Conf.Entries

/-!
# What a rejected line leaves behind

`parse` looks at `err` only before it reads the next line. An entry without a separator has pushed an empty
value by then; the other lines that are rejected push nothing (`noTrace_iff`).
-/

namespace NetLibrary.Conf
open LineScanner

variable {values values' : Values} {sect key buf file l j : Bytes} {b : UInt8} {r : Line}

/-! ## The line -/

/-- A line that starts an entry. -/
def EntryLine (l : Bytes) : Prop := ∃ c ∈ l.head?, isspace c = false ∧ startsEntry c

theorem peerChar_head (hns : isspace b = false) :
    peerChar { p := b :: l } = some (b, { p := b :: l }) := by
  have hspaces : spaces (b :: l) = some (b :: l) := by
    rw [spaces, if_neg (fun h => by rw [hns] at h; cases h.2)]
  simp only [peerChar, skipSpace, Bool.false_eq_true, if_false, hspaces, Option.map_some,
    Option.bind_eq_bind, Option.bind_some, List.head?_cons]
  rfl

/-- An entry pushes a value, also where it is an error. -/
theorem parseEntry_value {ls : LineScanner} (h : parseEntry sect ls = some r) : r.value ≠ none := by
  simp only [parseEntry, Option.bind_eq_bind, Option.bind_eq_some_iff] at h
  obtain ⟨_, -, _, -, h⟩ := h
  split at h
  · simp only [pure, Option.bind_some, Option.bind_eq_some_iff] at h
    obtain ⟨_, -, h⟩ := h
    cases h
    exact Option.some_ne_none _
  · simp only [pure, Option.bind_some, Option.bind_eq_some_iff] at h
    obtain ⟨_, -, _, -, _, -, h⟩ := h
    cases h
    exact Option.some_ne_none _

/-- Of the lines that are errors, those that start an entry push a value. -/
theorem parseLine_value (hl : l ≠ []) (h : parseLine sect key (l ++ 0 :: j) = some r)
    (herr : r.err = true) : r.value = none ↔ ¬EntryLine l := by
  obtain ⟨b, l, rfl⟩ := List.exists_cons_of_ne_nil hl
  simp only [parseLine, Option.bind_eq_bind, Option.bind_eq_some_iff] at h
  obtain ⟨⟨c, ln⟩, hpeer, h⟩ := h
  have hc : isspace b = false → c = b := by
    intro hns
    rw [List.cons_append, peerChar_head hns] at hpeer
    cases hpeer
    rfl
  simp only at h
  split at h
  · cases h
    cases herr
  · rename_i hcomment
    split at h
    · rename_i hbracket
      simp only [Option.bind_eq_some_iff] at h
      obtain ⟨_, -, _, -, h⟩ := h
      cases h
      refine iff_of_true rfl ?_
      rintro ⟨_, hb, hns, -, -, hnot⟩
      cases hb
      exact hnot ((hc hns).symm.trans hbracket)
    · rename_i hbracket
      obtain ⟨_, hb, h⟩ := Option.bind_eq_some_iff.mp h
      cases hb
      split at h
      · rename_i hsp
        split at h
        · cases h
          refine iff_of_true rfl ?_
          rintro ⟨_, hb, hns, -⟩
          cases hb
          rw [hsp] at hns
          cases hns
        · obtain ⟨_, -, h⟩ := Option.bind_eq_some_iff.mp h
          cases h
          cases herr
      · rename_i hsp
        have hns : isspace b = false := Bool.eq_false_iff.mpr hsp
        refine iff_of_false (parseEntry_value h) fun hnot => hnot ⟨b, rfl, hns, ?_⟩
        rw [hc hns] at hcomment hbracket
        exact ⟨mt .inl hcomment, mt (fun h => .inr (.inl h)) hcomment, hbracket⟩

/-! ## The file -/

/-- A line that is an error is the last one that is parsed. -/
theorem lines_rejected {ls : List Line} {rs : List Bytes} (h : lines sect key buf rs = some ls) (hr : r ∈ ls)
    (herr : r.err = true) : ∃ pre, ls = pre ++ [r] ∧ (∀ p ∈ pre, p.err = false) ∧
      ∃ read sect' key' buf', rs[pre.length]? = some read ∧
        parseLine sect' key' (fill buf' read) = some r := by
  induction rs generalizing sect key buf ls with
  | nil =>
    cases h
    cases hr
  | cons read rs ih =>
    simp only [lines, Option.bind_eq_bind, Option.bind_eq_some_iff] at h
    obtain ⟨l, hl, h⟩ := h
    split at h
    · cases h
      cases List.mem_singleton.mp hr
      exact ⟨[], rfl, fun _ hp => absurd hp List.not_mem_nil, read, sect, key, buf, rfl, hl⟩
    · rename_i hok
      obtain ⟨ls', hls', h⟩ := Option.bind_eq_some_iff.mp h
      cases h
      have hr' : r ∈ ls' := by
        rcases List.mem_cons.mp hr with rfl | hr
        · exact absurd herr hok
        · exact hr
      obtain ⟨pre, rfl, hpre, hrest⟩ := ih hls' hr'
      exact ⟨l :: pre, rfl, List.forall_mem_cons.mpr ⟨Bool.eq_false_iff.mpr hok, hpre⟩, hrest⟩

theorem pushAll_append {es es' : List Entry} : pushAll values (es ++ es') = pushAll (pushAll values es) es' :=
  List.foldl_append

theorem entries_snoc {ls : List Line} : entries (ls ++ [r]) = entries ls ++ r.written.toList := by
  rw [entries, List.filterMap_append]
  cases hr : r.written with
  | none => rw [List.filterMap_cons_none hr]; rfl
  | some e => rw [List.filterMap_cons_some hr]; rfl

/-- A line changes the map exactly if it has a value. -/
theorem pushAll_written : pushAll values r.written.toList = values ↔ r.value = none := by
  cases hv : r.value with
  | none =>
    rw [Line.written, hv]
    exact iff_of_true rfl rfl
  | some v =>
    rw [Line.written, hv]
    exact iff_of_false push_ne nofun

/-- **Which rejected lines leave no trace.** If `parse` returns `n > 0`, the map is what the first `n - 1`
lines alone make of it exactly if line `n` does not start an entry. -/
theorem noTrace_iff {n : Nat} (h : parse values buf (some file) = some (values', (n : Int))) (hn : 0 < n) :
    (∃ ret, parse values buf (some (firstLines (n - 1) file)) = some (values', ret)) ↔
      ∀ l, (reads [] file)[n - 1]? = some l → ¬EntryLine l := by
  rw [parse_eq] at h
  obtain ⟨ls, hls, h⟩ := Option.map_eq_some_iff.mp h
  rw [Prod.mk.injEq] at h
  obtain ⟨rfl, hret⟩ := h
  have hlast : (ls.foldl State.step { values }).err = true := by
    by_contra hok
    rw [if_neg hok] at hret
    omega
  obtain ⟨r, hr, herr⟩ : ∃ r ∈ ls, r.err = true := by
    by_contra hno
    have hok : ∀ l ∈ ls, l.err = false := fun l hl => Bool.eq_false_iff.mpr fun herr => hno ⟨l, hl, herr⟩
    rw [(lines_err (s := { values }) rfl hls).mpr hok] at hlast
    cases hlast
  obtain ⟨pre, rfl, hpre, read, sect', key', buf', hread, hline⟩ := lines_rejected hls hr herr
  have hnum : n - 1 = pre.length := by
    rw [if_pos hlast, List.length_append, List.length_singleton] at hret
    omega
  have htake : (pre ++ [r]).take pre.length = pre := List.take_left
  have hfirst : lines [] [] buf (reads [] (firstLines pre.length file)) = some pre := by
    rw [reads_firstLines]
    have hlines := lines_take hls (n := pre.length) (by rwa [htake])
    rwa [htake] at hlines
  have hvalue : r.value = none ↔ ¬EntryLine read :=
    parseLine_value (reads_ne_nil (List.mem_of_getElem? hread)) hline herr
  rw [hnum, parse_eq, hfirst, hread, entries_snoc, pushAll_append]
  constructor
  · rintro ⟨ret, heq⟩ l hl
    cases hl
    obtain ⟨hvalues, -⟩ := Prod.mk.inj (Option.some.inj heq)
    refine hvalue.mp (pushAll_written.mp hvalues.symm)
  · intro hall
    exact ⟨_, by rw [pushAll_written.mpr (hvalue.mpr (hall read rfl))]; rfl⟩

/-- The second line has a `[` that is not closed. -/
def openBracket : Bytes := ['k', '=', 'v', '\n', '[', 's', '\n'].map Char.toUInt8

theorem noTrace_iff_openBracket : ∃ values, parse ∅ [] (some openBracket) = some (values, 2) ∧
    ∃ ret, parse ∅ [] (some (firstLines 1 openBracket)) = some (values, ret) := by
  have hparse : parse ∅ [] (some openBracket) = some (push ∅ ['.'.toUInt8, 'k'.toUInt8] ['v'.toUInt8], 2) :=
    rfl
  refine ⟨_, hparse, (noTrace_iff (n := 2) hparse Nat.two_pos).mpr fun l hl => ?_⟩
  cases hl
  rintro ⟨_, hc, -, -, -, hbracket⟩
  cases hc
  exact hbracket rfl

/-- A line without a separator. -/
def noSeparator : Bytes := ['x', '\n'].map Char.toUInt8

/-- It leaves an empty value. -/
theorem not_noTrace : ¬∀ (values values' : Values) (buf file : Bytes) (n : Nat), 0 < n →
    parse values buf (some file) = some (values', (n : Int)) →
    ∃ ret, parse values buf (some (firstLines (n - 1) file)) = some (values', ret) := by
  intro h
  have hparse : parse ∅ [] (some noSeparator) = some (push ∅ ['.'.toUInt8] [], 1) := rfl
  obtain ⟨ret, hempty⟩ := h ∅ _ [] noSeparator 1 Nat.one_pos hparse
  obtain ⟨hvalues, -⟩ := Prod.mk.inj (Option.some.inj hempty)
  exact push_ne hvalues.symm

end NetLibrary.Conf
