import NetLibrary.Verify.Conf.Lines
import NetLibrary.Verify.Conf.Entries

/-!
# The `=` format

`Item` is the grammar of a file: its lines, each with all the freedom that the format leaves it. `effect`
is what a line means. `parseLine_item` shows, line by line, that the scanner finds just this, and
`parse_format` reads off it what the whole file leaves in the map.
-/

namespace NetLibrary.Conf
open LineScanner

inductive Item
  | blank (blanks : Bytes)
  | comment (indent : Bytes) (mark : UInt8) (text : Bytes)
  | sect (name : Bytes)
  | entry (key before after value : Bytes)
  | continuation (indent text : Bytes)
  deriving DecidableEq, Repr

/-- Bytes that a line can consist of. -/
def Plain (t : Bytes) : Prop := 0 ∉ t ∧ '\n'.toUInt8 ∉ t

def Blank (t : Bytes) : Prop := ∀ c ∈ t, isspace c = true

/-- Neither the first byte nor the last one is a blank. -/
def Trimmed (t : Bytes) : Prop := t.dropWhile isspace = t ∧ t.rdropWhile isspace = t

/-- The line without its newline. -/
def Item.text : Item → Bytes
  | .blank blanks => blanks
  | .comment indent mark text => indent ++ mark :: text
  | .sect name => '['.toUInt8 :: name ++ [']'.toUInt8]
  | .entry key before after value => key ++ before ++ '='.toUInt8 :: (after ++ value)
  | .continuation indent text => indent ++ text

/-- A line of its kind. `open'` says that there is an entry in the section so far. -/
def Item.Valid (open' : Bool) : Item → Prop
  | .blank blanks => Blank blanks
  | .comment indent mark _ => Blank indent ∧ (mark = ';'.toUInt8 ∨ mark = '#'.toUInt8)
  | .sect name => Trimmed name ∧ ']'.toUInt8 ∉ name
  | .entry key before after value =>
    (∃ c ∈ key.head?, startsEntry c) ∧ Trimmed key ∧ '='.toUInt8 ∉ key ∧ Blank before ∧ Blank after ∧
      ∀ c ∈ value, endsValue c = false
  | .continuation indent text =>
    open' = true ∧ indent ≠ [] ∧ Blank indent ∧ ∃ c ∈ text.head?, isspace c = false ∧ startsEntry c

/-- Whether a continuation may follow the line. -/
def Item.opens (open' : Bool) : Item → Bool
  | .blank _ | .comment _ _ _ | .continuation _ _ => open'
  | .sect _ => false
  | .entry _ _ _ _ => true

/-- A list of lines that fit into the line buffer, with every continuation after an entry. -/
def Valid (open' : Bool) : List Item → Prop
  | [] => True
  | i :: is => i.Valid open' ∧ Plain i.text ∧ i.text.length ≤ 1022 ∧ Valid (i.opens open') is

/-- The file, whose last line may lack its newline. -/
def render (newline : Bool) : List Item → Bytes
  | [] => []
  | i :: is =>
    if is = [] ∧ newline = false then i.text else i.text ++ '\n'.toUInt8 :: render newline is

/-- What a line means after a section and a key. -/
def Item.effect (sect key : Bytes) : Item → Line
  | .blank _ | .comment _ _ _ => { sect, key }
  | .sect name => { sect := name, key := [] }
  | .entry key _ _ value => { sect, key, value := some value }
  | .continuation _ text => { sect, key, value := some (text.rdropWhile isspace) }

/-- The entries that a file writes. -/
def entriesOf (sect key : Bytes) : List Item → List Entry
  | [] => []
  | i :: is =>
    (i.effect sect key).written.toList ++ entriesOf (i.effect sect key).sect (i.effect sect key).key is

variable {sect key s t j e b buf rest cur : Bytes} {i : Item} {is : List Item} {o : Bool}

/-! ## One line -/

theorem dropWhile_blank (hb : Blank b) : (b ++ t).dropWhile isspace = t.dropWhile isspace :=
  List.dropWhile_append_of_pos hb

theorem rdropWhile_blank (hb : Blank b) : (t ++ b).rdropWhile isspace = t.rdropWhile isspace := by
  rw [List.rdropWhile, List.reverse_append,
    List.dropWhile_append_of_pos fun c hc => hb c (List.mem_reverse.mp hc), List.rdropWhile]

/-- The end of a line, with its newline or without. -/
def LineEnd (e : Bytes) : Prop := e = [] ∨ e = ['\n'.toUInt8]

theorem LineEnd.blank (he : LineEnd e) : Blank e := by
  rcases he with rfl | rfl
  · exact fun c hc => absurd hc List.not_mem_nil
  · exact fun c hc => List.mem_singleton.mp hc ▸ by decide

theorem LineEnd.not_mem (he : LineEnd e) : 0 ∉ e := fun h => absurd (he.blank 0 h) (by decide)

theorem valueOf_append (hb : Blank b) (ht : ∀ c ∈ t, endsValue c = false) (he : LineEnd e) :
    valueOf (b ++ t ++ e) = t := by
  have hns : ∀ c ∈ t, isspace c = false := by
    intro c hc
    cases hsp : isspace c with
    | false => rfl
    | true => exact (endsValue_of_isspace hsp).symm.trans (ht c hc)
  rw [valueOf, List.append_assoc, dropWhile_blank hb]
  cases t with
  | nil => rw [List.nil_append, List.dropWhile_eq_nil_iff.mpr he.blank, List.takeWhile_nil]
  | cons c t =>
    rw [List.cons_append, List.dropWhile_cons_of_neg (by simp [hns c List.mem_cons_self]),
      ← List.cons_append, List.takeWhile_append_of_pos fun x hx => by simp [ht x hx]]
    rcases he with rfl | rfl
    · exact List.append_nil _
    · rw [List.takeWhile_cons_of_neg (by decide), List.append_nil]

/-- **The scanner finds what the line means.** -/
theorem parseLine_item (h : i.Valid o) (hp : Plain i.text) (ho : o = true → key ≠ []) (he : LineEnd e) :
    parseLine sect key (i.text ++ e ++ 0 :: j) = some (i.effect sect key) := by
  have hl : 0 ∉ i.text ++ e := fun h => (List.mem_append.mp h).elim hp.1 he.not_mem
  cases i with
  | blank blanks =>
    apply parseLine_blank hl
    rw [Item.text, dropWhile_blank h]
    exact List.dropWhile_eq_nil_iff.mpr he.blank
  | comment indent mark text =>
    obtain ⟨hindent, hmark⟩ := h
    refine parseLine_comment (t := text ++ e) hl ?_ hmark
    rw [Item.text, List.append_assoc, dropWhile_blank hindent, List.cons_append,
      List.dropWhile_cons_of_neg]
    rcases hmark with rfl | rfl <;> decide
  | sect name =>
    obtain ⟨⟨hleft, hright⟩, hclose⟩ := h
    have hc : (Item.sect name).text ++ e = '['.toUInt8 :: (name ++ ']'.toUInt8 :: e) := by
      simp [Item.text]
    have hname : (name ++ ']'.toUInt8 :: e).dropWhile isspace = name ++ ']'.toUInt8 :: e := by
      rw [List.dropWhile_append, hleft]
      split
      · rename_i hnil
        rw [List.isEmpty_iff.mp hnil]
        rfl
      · rfl
    rw [hc] at hl ⊢
    rw [parseLine_section hl rfl hclose hname, hright]
    rfl
  | entry key before after value =>
    obtain ⟨⟨c, hhead, hstart⟩, ⟨hleft, hright⟩, heq, hbefore, hafter, hvalue⟩ := h
    cases key with
    | nil => cases hhead
    | cons c' key =>
      cases hhead
      have hns : isspace c = false := by
        have hfirst := List.head?_dropWhile_not isspace (c :: key)
        rw [hleft] at hfirst
        exact hfirst
      have hc : (Item.entry (c :: key) before after value).text ++ e =
          c :: (key ++ before ++ '='.toUInt8 :: (after ++ value ++ e)) := by
        simp [Item.text]
      have hsplit : (c :: (key ++ before ++ '='.toUInt8 :: (after ++ value ++ e))).dropWhile isspace =
          c :: key ++ before ++ '='.toUInt8 :: (after ++ value ++ e) :=
        List.dropWhile_cons_of_neg (by simp [hns])
      have hs : '='.toUInt8 ∉ c :: key ++ before := by
        intro hmem
        rcases List.mem_append.mp hmem with hmem | hmem
        · exact heq hmem
        · exact absurd (hbefore _ hmem) (by decide)
      rw [hc] at hl ⊢
      rw [parseLine_entry hl hns hstart, parseEntry_eq hl hs hsplit, rdropWhile_blank hbefore, hright,
        valueOf_append hafter hvalue he]
      rfl
  | continuation indent text =>
    obtain ⟨hopen, hne, hindent, c, hhead, hns, hstart⟩ := h
    obtain ⟨text, rfl⟩ : ∃ t, text = c :: t := by
      cases text with
      | nil => cases hhead
      | cons _ t => cases hhead; exact ⟨t, rfl⟩
    have hc : ((Item.continuation indent (c :: text)).text ++ e).dropWhile isspace =
        c :: (text ++ e) := by
      rw [Item.text, List.append_assoc, dropWhile_blank hindent, List.cons_append,
        List.dropWhile_cons_of_neg (by simp [hns])]
    cases indent with
    | nil => cases hne rfl
    | cons b indent =>
      rw [parseLine_indented hl rfl (hindent b List.mem_cons_self) hc hstart, if_neg (ho hopen),
        ← List.cons_append, rdropWhile_blank he.blank]
      rfl

theorem effect_err : (i.effect sect key).err = false := by cases i <;> rfl

/-- After a line that opens a continuation there is a key. -/
theorem effect_key (h : i.Valid o) (ho : o = true → key ≠ []) (hopens : i.opens o = true) :
    (i.effect sect key).key ≠ [] := by
  cases i with
  | blank | comment | continuation => exact ho hopens
  | sect => cases hopens
  | entry key before after value =>
    obtain ⟨⟨c, hhead, -⟩, -⟩ := h
    rintro hnil
    rw [show key = [] from hnil] at hhead
    cases hhead

/-- A line without a text is blank. -/
theorem written_of_text_nil (h : i.Valid o) (hnil : i.text = []) :
    (i.effect sect key).written = none := by
  cases i with
  | blank | comment => rfl
  | sect name => rfl
  | entry => simp [Item.text] at hnil
  | continuation indent text => exact absurd (List.append_eq_nil_iff.mp hnil).1 h.2.1

/-! ## The whole file -/

theorem lines_cons {read : Bytes} {reads : List Bytes} {l : Line} {ls : List Line}
    (hl : parseLine sect key (fill buf read) = some l) (herr : l.err = false)
    (hls : lines l.sect l.key (fill buf read) reads = some ls) :
    lines sect key buf (read :: reads) = some (l :: ls) := by
  simp [lines, hl, herr, hls]

theorem entries_cons {l : Line} {ls : List Line} :
    entries (l :: ls) = l.written.toList ++ entries ls := by
  rw [entries, List.filterMap_cons]
  cases l.written <;> rfl

/-- The lines that are read mean what the file says, and none is an error. -/
theorem lines_render {newline : Bool} (h : Valid o is) (ho : o = true → key ≠ []) :
    ∃ ls, lines sect key buf (reads [] (render newline is)) = some ls ∧ (∀ l ∈ ls, l.err = false) ∧
      entries ls = entriesOf sect key is := by
  induction is generalizing o sect key buf with
  | nil => exact ⟨[], rfl, fun _ hl => absurd hl List.not_mem_nil, rfl⟩
  | cons i is ih =>
    obtain ⟨hi, hp, hlen, his⟩ := h
    have hlen' : ([] : Bytes).length + i.text.length ≤ 1022 := by simpa using hlen
    rw [render, entriesOf]
    split
    · rename_i hlast
      obtain ⟨rfl, -⟩ := hlast
      rw [reads_last hp.2 hlen', List.nil_append]
      split
      · rename_i hnil
        refine ⟨[], rfl, fun _ hl => absurd hl List.not_mem_nil, ?_⟩
        rw [written_of_text_nil hi hnil]
        rfl
      · refine ⟨[i.effect sect key], lines_cons ?_ effect_err rfl, ?_, entries_cons⟩
        · have hline : parseLine sect key (i.text ++ [] ++ 0 :: buf.drop (i.text.length + 1)) = _ :=
            parseLine_item hi hp ho (.inl rfl)
          rwa [List.append_nil] at hline
        · exact fun l hl => List.mem_singleton.mp hl ▸ effect_err
    · rw [reads_line hp.2 hlen', List.nil_append]
      have hkey : i.opens o = true → (i.effect sect key).key ≠ [] := effect_key hi ho
      obtain ⟨ls, hls, herr, hentries⟩ := ih his hkey
      refine ⟨_, lines_cons (parseLine_item hi hp ho (.inr rfl)) effect_err hls, ?_, ?_⟩
      · exact List.forall_mem_cons.mpr ⟨effect_err, herr⟩
      · rw [entries_cons, hentries]

/-- **`parse` reads the `=` format exactly.** Every file of the format parses without an error, whatever is
in the memory of the line buffer, and under every section and name the map then holds the values of
the entries with the same key up to case, in the order of the file. -/
theorem parse_format (newline : Bool) (h : Valid false is) (buf : Bytes) :
    ∃ values, parse ∅ buf (some (render newline is)) = some (values, 0) ∧
      ∀ sect name, getStrings values sect name = ((entriesOf [] [] is).filter fun e =>
          (e.sect ++ '.'.toUInt8 :: e.key).map tolower = (sect ++ '.'.toUInt8 :: name).map tolower).map
            Entry.value ∧
        ∀ d, get values sect name d = (getStrings values sect name).getLastD d := by
  obtain ⟨ls, hls, herr, hentries⟩ : ∃ ls, lines [] [] buf (reads [] (render newline is)) = some ls ∧ _ :=
    lines_render h fun h => absurd h Bool.false_ne_true
  refine ⟨_, parse_eq_zero_iff.mpr ⟨ls, hls, herr, rfl⟩, fun sect name => ⟨?_, fun d => ?_⟩⟩
  · rw [getStrings_pushAll, hentries]
    change [] ++ found sect name _ = _
    simp [found, makeKey]
  · rw [get_eq, List.getLastD_eq_getLast?]

instance : Decidable (Blank t) := List.decidableBAll (fun c => isspace c = true) t

instance : Decidable (∀ c ∈ t, endsValue c = false) := List.decidableBAll (fun c => endsValue c = false) t

instance : Decidable (Plain t) := inferInstanceAs (Decidable (0 ∉ t ∧ '\n'.toUInt8 ∉ t))

instance : Decidable (i.Valid o) := by
  cases i <;> unfold Item.Valid Trimmed <;> infer_instance

instance decidableValid : (o : Bool) → (is : List Item) → Decidable (Valid o is)
  | _, [] => .isTrue trivial
  | o, i :: is =>
    have := decidableValid (i.opens o) is
    inferInstanceAs (Decidable (i.Valid o ∧ Plain i.text ∧ i.text.length ≤ 1022 ∧ Valid (i.opens o) is))

/-- A section with an entry, a continuation, and the same key in another case on a last line that has no
newline. -/
def sample : List Item :=
  [.comment [' '.toUInt8] '#'.toUInt8 ['='.toUInt8], .sect ['S'.toUInt8],
    .entry ['k'.toUInt8] [' '.toUInt8] [] ['v'.toUInt8],
    .continuation [9] ['a'.toUInt8, ';'.toUInt8, 'b'.toUInt8, ' '.toUInt8], .blank [],
    .entry ['K'.toUInt8] [] [] []]

theorem parse_format_sample : ∃ values, parse ∅ [] (some (render false sample)) = some (values, 0) ∧
    getStrings values ['s'.toUInt8] ['K'.toUInt8] =
      [['v'.toUInt8], ['a'.toUInt8, ';'.toUInt8, 'b'.toUInt8], []] := by
  have hvalid : Valid false sample := by decide
  obtain ⟨values, hparse, hget⟩ := parse_format false hvalid []
  refine ⟨values, hparse, (hget _ _).1.trans ?_⟩
  decide

end NetLibrary.Conf
