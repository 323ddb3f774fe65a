import NetLibrary.Verify.Conf.Format

/-!
# The two separators

A file of the `=` format with some entries rewritten to `:`. `match(':')` already moves the cursor past the
`:`, and the `skip(1)` that both separators share then drops one byte more: a blank, the first byte of the
value, or what follows it. `colon_iff` says for which rewritings the file keeps its meaning.
-/

namespace NetLibrary.Conf
open LineScanner

/-- A line of a file and what becomes of it: nothing else, or an entry with `:` and other blanks. -/
inductive Rewrite
  | same (i : Item)
  | colon (key before after value before' after' : Bytes)
  deriving DecidableEq, Repr

namespace Rewrite

/-- The line of the `=` format. -/
def item : Rewrite → Item
  | .same i => i
  | .colon key before after value _ _ => .entry key before after value

/-- The text of the new line. -/
def text : Rewrite → Bytes
  | .same i => i.text
  | .colon key _ _ value before' after' => key ++ before' ++ ':'.toUInt8 :: (after' ++ value)

def Separated : Rewrite → Prop
  | .same _ => True
  | .colon key _ _ value before' after' =>
    ':'.toUInt8 ∉ key ∧ '='.toUInt8 ∉ value ∧ Blank before' ∧ Blank after'

structure Valid (r : Rewrite) : Prop where
  separated : r.Separated
  plain : Plain r.text
  length : r.text.length ≤ 1022

end Rewrite

/-- What ends a line before the lines `rs`. -/
def lineEnd (newline : Bool) (rs : List Rewrite) : Bytes :=
  if rs = [] ∧ newline = false then [] else ['\n'.toUInt8]

/-- The new file. -/
def renderAs (newline : Bool) : List Rewrite → Bytes
  | [] => []
  | r :: rs => r.text ++ lineEnd newline rs ++ renderAs newline rs

/-- What lies in the buffer has no value: blanks, and then a NUL or a comment. -/
def Quiet (j : Bytes) : Prop :=
  ∃ c t, spaces j = some (c :: t) ∧ (c = 0 ∨ c = '#'.toUInt8 ∨ c = ';'.toUInt8)

/-- A rewritten line keeps its value: a blank follows the `:`, or nothing but the end of the line. On a last
line without newline the byte that is dropped is the NUL, and the value is what lies in the buffer beyond. -/
def Rewrite.Kept (e j : Bytes) : Rewrite → Prop
  | .same _ => True
  | .colon _ _ _ value _ after' => after' ≠ [] ∨ value = [] ∧ (e ≠ [] ∨ Quiet j)

/-- All lines keep their values. `buf` is what is in the line buffer before. -/
def Kept (newline : Bool) (buf : Bytes) : List Rewrite → Prop
  | [] => True
  | r :: rs =>
    r.Kept (lineEnd newline rs) (buf.drop ((r.text ++ lineEnd newline rs).length + 1)) ∧
      Kept newline (fill buf (r.text ++ lineEnd newline rs)) rs

variable {sect key name before after value before' after' t j e buf : Bytes} {r : Rewrite} {rs : List Rewrite}
  {o newline : Bool} {l : Line} {ls : List Line} {values : Values}

/-! ## One line -/

theorem lineEnd_lineEnd : LineEnd (lineEnd newline rs) := by
  rw [lineEnd]
  split
  · exact .inl rfl
  · exact .inr rfl

/-- The scanner stops at a NUL or at a byte that is no blank. -/
theorem spaces_some {p : Bytes} (h : spaces j = some p) :
    ∃ c t, p = c :: t ∧ (c = 0 ∨ isspace c = false) := by
  induction j with
  | nil => cases h
  | cons c j ih =>
    rw [spaces] at h
    split at h
    · exact ih h
    · rename_i hstop
      cases h
      refine ⟨c, j, rfl, ?_⟩
      by_cases hc : c = 0
      · exact .inl hc
      · exact .inr (Bool.eq_false_iff.mpr fun hsp => hstop ⟨hc, hsp⟩)

/-- The value that the scanner finds is empty exactly if nothing comes before a NUL or a comment. -/
theorem quiet_iff : (consumeTillEnd { p := j }).map Prod.fst = some [] ↔ Quiet j := by
  rw [Quiet, consumeTillEnd, skipSpace, if_neg Bool.false_ne_true]
  cases hspaces : spaces j with
  | none =>
    refine iff_of_false (fun h => Option.some_ne_none _ h.symm) ?_
    rintro ⟨_, _, h, -⟩
    cases h
  | some p =>
    obtain ⟨c, t, rfl, hns⟩ := spaces_some hspaces
    simp only [Option.map_some, Option.bind_eq_bind, Option.bind_some, Bool.false_eq_true, if_false, till]
    split
    · rename_i hgo
      have hns : isspace c = false := hns.resolve_left hgo.1
      have hend : ¬(c = 0 ∨ c = '#'.toUInt8 ∨ c = ';'.toUInt8) := by
        have hstop := hgo.2
        simp only [Bool.or_eq_false_iff, decide_eq_false_iff_not] at hstop
        exact fun h => h.elim hgo.1 fun h => h.elim hstop.1.1 hstop.1.2
      refine iff_of_false ?_ ?_
      · intro h
        obtain ⟨_, h, hempty⟩ := Option.map_eq_some_iff.mp h
        obtain ⟨⟨s, rest⟩, hrest, h⟩ := Option.bind_eq_some_iff.mp h
        obtain ⟨⟨s', _⟩, -, heq⟩ := Option.map_eq_some_iff.mp hrest
        cases heq
        cases h
        have hblank : isspace c = true := List.rdropWhile_eq_nil_iff.mp hempty c List.mem_cons_self
        rw [hns] at hblank
        cases hblank
      · rintro ⟨_, _, h, hc⟩
        cases h
        exact hend hc
    · rename_i hstop
      refine iff_of_true rfl ⟨c, t, rfl, ?_⟩
      by_cases hc : c = 0
      · exact .inl hc
      · have hends : endsValue c = true := Bool.not_eq_false _ |>.mp fun h => hstop ⟨hc, h⟩
        rw [endsValue, hns.resolve_left hc, Bool.or_false, Bool.or_eq_true, decide_eq_true_eq,
          decide_eq_true_eq] at hends
        exact .inr hends

/-- Of a text without NUL it is `valueOf`. -/
theorem value_text (ht : 0 ∉ t) :
    (consumeTillEnd { p := t ++ 0 :: j }).map Prod.fst = some (valueOf t) := by
  rw [consumeTillEnd_text ht]
  rfl

theorem colon_value (hr : (Rewrite.colon key before after value before' after').Valid)
    (hvalue : ∀ c ∈ value, endsValue c = false) (he : LineEnd e) :
    (consumeTillEnd { p := (after' ++ value ++ e ++ 0 :: j).drop 1 }).map Prod.fst = some value ↔
      (Rewrite.colon key before after value before' after').Kept e j := by
  have ht : 0 ∉ after' ++ value ++ e := fun h => (List.mem_append.mp h).elim
    (fun h => hr.plain.1 (List.mem_append_right _ (.tail _ h))) he.not_mem
  obtain ⟨-, -, -, hafter⟩ := hr.separated
  rw [Rewrite.Kept]
  cases after' with
  | cons a as =>
    have hblank : Blank as := fun c hc => hafter c (.tail _ hc)
    simp only [List.cons_append, List.drop_one, List.tail_cons] at ht ⊢
    rw [value_text (List.not_mem_of_not_mem_cons ht), valueOf_append hblank hvalue he]
    exact iff_of_true rfl (.inl (List.cons_ne_nil _ _))
  | nil =>
    have hnil : Blank [] := hafter
    cases value with
    | cons v vs =>
      have hvs : ∀ c ∈ vs, endsValue c = false := fun c hc => hvalue c (.tail _ hc)
      simp only [List.nil_append, List.cons_append, List.drop_one, List.tail_cons] at ht ⊢
      rw [value_text (List.not_mem_of_not_mem_cons ht), ← List.nil_append vs,
        valueOf_append hnil hvs he]
      refine iff_of_false (fun h => ?_) (fun h => ?_)
      · have hlen := congrArg List.length (Option.some.inj h)
        simp at hlen
      · rcases h with h | ⟨h, -⟩
        · exact h rfl
        · cases h
    | nil =>
      rcases he with rfl | rfl
      · refine quiet_iff.trans ⟨fun h => .inr ⟨rfl, .inr h⟩, ?_⟩
        rintro (h | ⟨-, h | h⟩)
        · exact absurd rfl h
        · exact absurd rfl h
        · exact h
      · exact iff_of_true (value_text (t := []) nofun) (.inr ⟨rfl, .inl (List.cons_ne_nil _ _)⟩)

/-- **What the scanner does with a `:`.** -/
theorem parseLine_colon (h : (Item.entry key before after value).Valid o)
    (hr : (Rewrite.colon key before after value before' after').Valid) (he : LineEnd e) {sect key₀ : Bytes} :
    parseLine sect key₀ ((Rewrite.colon key before after value before' after').text ++ e ++ 0 :: j) =
      (consumeTillEnd { p := (after' ++ value ++ e ++ 0 :: j).drop 1 }).map fun v =>
        { sect, key, value := some v.1 } := by
  have hl : 0 ∉ (Rewrite.colon key before after value before' after').text ++ e := fun h =>
    (List.mem_append.mp h).elim hr.plain.1 he.not_mem
  obtain ⟨⟨c, hhead, hstart⟩, ⟨hleft, hright⟩, heq, -, -, hvalue⟩ := h
  obtain ⟨hcolon, heqv, hbefore, hafter⟩ := hr.separated
  have hblank : ∀ {b : Bytes}, Blank b → '='.toUInt8 ∉ b ∧ ':'.toUInt8 ∉ b := fun hb =>
    ⟨fun h => absurd (hb _ h) (by decide), fun h => absurd (hb _ h) (by decide)⟩
  cases key with
  | nil => cases hhead
  | cons c' key =>
    cases hhead
    have hns : isspace c = false := by
      have hfirst := List.head?_dropWhile_not isspace (c :: key)
      rw [hleft] at hfirst
      exact hfirst
    have hc : (Rewrite.colon (c :: key) before after value before' after').text ++ e =
        c :: (key ++ before' ++ ':'.toUInt8 :: (after' ++ value ++ e)) := by
      simp [Rewrite.text]
    have hsplit : (c :: (key ++ before' ++ ':'.toUInt8 :: (after' ++ value ++ e))).dropWhile isspace =
        c :: key ++ before' ++ ':'.toUInt8 :: (after' ++ value ++ e) :=
      List.dropWhile_cons_of_neg (by simp [hns])
    have hs : ':'.toUInt8 ∉ c :: key ++ before' := fun h =>
      (List.mem_append.mp h).elim hcolon (hblank hbefore).2
    have hnoeq : '='.toUInt8 ∉ c :: (key ++ before' ++ ':'.toUInt8 :: (after' ++ value ++ e)) := by
      rw [← List.cons_append, ← List.cons_append]
      intro h
      rcases List.mem_append.mp h with h | h
      · exact (List.mem_append.mp h).elim heq (hblank hbefore).1
      · rcases List.mem_cons.mp h with h | h
        · exact absurd h (by decide)
        · rcases List.mem_append.mp h with h | h
          · exact (List.mem_append.mp h).elim (hblank hafter).1 heqv
          · exact (hblank he.blank).1 h
    rw [hc] at hl ⊢
    rw [parseLine_entry hl hns hstart, parseEntry_colon hl hnoeq hs hsplit, rdropWhile_blank hbefore, hright]

/-- A line that keeps its value means what it meant, and the others differ in their value only. -/
theorem parseLine_rewrite (h : r.item.Valid o) (hr : r.Valid) (ho : o = true → key ≠ []) (he : LineEnd e) :
    (parseLine sect key (r.text ++ e ++ 0 :: j) = some (r.item.effect sect key) ↔ r.Kept e j) ∧
      ∀ l, parseLine sect key (r.text ++ e ++ 0 :: j) = some l →
        ∃ v, l = { r.item.effect sect key with value := v } ∧
          (v = none ↔ (r.item.effect sect key).value = none) := by
  cases r with
  | same i =>
    have hline : parseLine sect key (i.text ++ e ++ 0 :: j) = some (i.effect sect key) :=
      parseLine_item h hr.plain ho he
    refine ⟨iff_of_true hline trivial, fun l hl => ?_⟩
    cases hline.symm.trans hl
    exact ⟨_, rfl, Iff.rfl⟩
  | colon key before after value before' after' =>
    have hvalue : ∀ c ∈ value, endsValue c = false := h.2.2.2.2.2
    rw [parseLine_colon h hr he, ← colon_value hr hvalue he]
    constructor
    · rw [Option.map_eq_some_iff, Option.map_eq_some_iff]
      refine exists_congr fun v => and_congr_right fun _ => ⟨fun heq => ?_, fun heq => by rw [← heq]; rfl⟩
      exact Option.some.inj (congrArg Line.value heq)
    · intro l hl
      obtain ⟨v, -, rfl⟩ := Option.map_eq_some_iff.mp hl
      exact ⟨some v.1, rfl, iff_of_false nofun nofun⟩

/-! ## The file -/

/-- What `fgets` reads first. -/
theorem reads_renderAs (hr : r.Valid) : reads [] (renderAs newline (r :: rs)) =
    if r.text ++ lineEnd newline rs = [] then []
    else (r.text ++ lineEnd newline rs) :: reads [] (renderAs newline rs) := by
  have hlen : ([] : Bytes).length + r.text.length ≤ 1022 := by simpa using hr.length
  rw [renderAs, lineEnd]
  split
  · rename_i hlast
    obtain ⟨rfl, -⟩ := hlast
    rw [List.append_nil, renderAs, List.append_nil, reads_last hr.plain.2 hlen, List.nil_append]
    rfl
  · rw [List.append_assoc, List.singleton_append, reads_line hr.plain.2 hlen, List.nil_append, if_neg]
    exact List.append_ne_nil_of_right_ne_nil _ (List.cons_ne_nil _ _)

/-- The same entries, up to their values. -/
def place (e : Entry) : Bytes × Bytes := (e.sect, e.key)

/-- A new line without a text is an old one, and the last one. -/
theorem text_eq_nil (h : r.text ++ lineEnd newline rs = []) :
    rs = [] ∧ ∃ i, r = .same i ∧ i.text = [] := by
  obtain ⟨htext, hend⟩ := List.append_eq_nil_iff.mp h
  refine ⟨?_, ?_⟩
  · rw [lineEnd] at hend
    split at hend
    · rename_i hlast
      exact hlast.1
    · cases hend
  · cases r with
    | same i => exact ⟨i, rfl, htext⟩
    | colon => simp [Rewrite.text] at htext

theorem place_written {v : Option Bytes} (h : v = none ↔ l.value = none) :
    ({ l with value := v } : Line).written.toList.map place = l.written.toList.map place := by
  cases v with
  | none => rw [Line.written, Line.written, h.mp rfl]
  | some v =>
    obtain ⟨v', hv'⟩ := Option.ne_none_iff_exists'.mp fun hnone => Option.some_ne_none v (h.mpr hnone)
    rw [Line.written, Line.written, hv']
    rfl

/-- A line that writes the entry of another one has its value. -/
theorem value_of_written {v : Option Bytes} {es es' : List Entry} (h : v = none ↔ l.value = none)
    (heq : ({ l with value := v } : Line).written.toList ++ es = l.written.toList ++ es') :
    v = l.value ∧ es = es' := by
  cases v with
  | none =>
    rw [Line.written, Line.written, h.mp rfl] at heq
    exact ⟨(h.mp rfl).symm, heq⟩
  | some v =>
    obtain ⟨v', hv'⟩ := Option.ne_none_iff_exists'.mp fun hnone => Option.some_ne_none v (h.mpr hnone)
    rw [Line.written, Line.written, hv'] at heq
    obtain ⟨hentry, hrest⟩ := List.cons.inj heq
    rw [hv', Entry.mk.inj hentry |>.2.2]
    exact ⟨rfl, hrest⟩

/-- The lines of the new file write entries in the same places, and none is an error. -/
theorem lines_renderAs (h : Valid o (rs.map Rewrite.item)) (hrs : ∀ r ∈ rs, r.Valid)
    (ho : o = true → key ≠ []) (hls : lines sect key buf (reads [] (renderAs newline rs)) = some ls) :
    (∀ l ∈ ls, l.err = false) ∧
      (entries ls).map place = (entriesOf sect key (rs.map Rewrite.item)).map place := by
  induction rs generalizing o sect key buf ls with
  | nil =>
    cases hls
    exact ⟨nofun, rfl⟩
  | cons r rs ih =>
    obtain ⟨hr, hrs⟩ := List.forall_mem_cons.mp hrs
    obtain ⟨hi, -, -, his⟩ := h
    rw [reads_renderAs hr] at hls
    rw [List.map_cons, entriesOf, List.map_append]
    split at hls
    · rename_i hnil
      obtain ⟨rfl, i, rfl, htext⟩ := text_eq_nil hnil
      have hwritten : (i.effect sect key).written = none := written_of_text_nil hi htext
      cases hls
      rw [Rewrite.item, hwritten]
      exact ⟨nofun, rfl⟩
    · simp only [lines, Option.bind_eq_bind, Option.bind_eq_some_iff] at hls
      obtain ⟨l, hl, hls⟩ := hls
      obtain ⟨v, rfl, hv⟩ := (parseLine_rewrite hi hr ho lineEnd_lineEnd).2 l hl
      have herr : (r.item.effect sect key).err = false := effect_err
      rw [if_neg (by simp [herr])] at hls
      obtain ⟨ls', hls', heq⟩ := Option.bind_eq_some_iff.mp hls
      cases heq
      have hkey : r.item.opens o = true → (r.item.effect sect key).key ≠ [] := effect_key hi ho
      obtain ⟨hok, hplace⟩ := ih his hrs hkey hls'
      refine ⟨List.forall_mem_cons.mpr ⟨herr, hok⟩, ?_⟩
      rw [entries_cons, List.map_append, place_written hv, hplace]

/-- They write the same entries exactly if all values are kept. -/
theorem lines_renderAs_iff (h : Valid o (rs.map Rewrite.item)) (hrs : ∀ r ∈ rs, r.Valid)
    (ho : o = true → key ≠ []) :
    (∃ ls, lines sect key buf (reads [] (renderAs newline rs)) = some ls ∧
      entries ls = entriesOf sect key (rs.map Rewrite.item)) ↔ Kept newline buf rs := by
  induction rs generalizing o sect key buf with
  | nil => exact iff_of_true ⟨[], rfl, rfl⟩ trivial
  | cons r rs ih =>
    obtain ⟨hr, hrs⟩ := List.forall_mem_cons.mp hrs
    obtain ⟨hi, -, -, his⟩ := h
    rw [reads_renderAs hr, List.map_cons, entriesOf, Kept]
    split
    · rename_i hnil
      obtain ⟨rfl, i, rfl, htext⟩ := text_eq_nil hnil
      have hwritten : (i.effect sect key).written = none := written_of_text_nil hi htext
      refine iff_of_true ⟨[], rfl, ?_⟩ ⟨trivial, trivial⟩
      rw [Rewrite.item, hwritten]
      rfl
    · have herr : (r.item.effect sect key).err = false := effect_err
      have hkey : r.item.opens o = true → (r.item.effect sect key).key ≠ [] := effect_key hi ho
      obtain ⟨hiff, hdiffer⟩ := @parseLine_rewrite sect key _ _ _ o hi hr ho lineEnd_lineEnd
      rw [← ih his hrs hkey]
      constructor
      · rintro ⟨ls, hls, hentries⟩
        simp only [lines, Option.bind_eq_bind, Option.bind_eq_some_iff] at hls
        obtain ⟨l, hl, hls⟩ := hls
        obtain ⟨v, rfl, hv⟩ := hdiffer l hl
        rw [if_neg (by simp [herr])] at hls
        obtain ⟨ls', hls', heq⟩ := Option.bind_eq_some_iff.mp hls
        cases heq
        rw [entries_cons] at hentries
        obtain ⟨rfl, hrest⟩ := value_of_written hv hentries
        exact ⟨hiff.mp hl, ls', hls', hrest⟩
      · rintro ⟨hkept, ls, hls, hentries⟩
        refine ⟨_, lines_cons (hiff.mpr hkept) herr hls, ?_⟩
        rw [entries_cons, hentries]

theorem found_cons {e : Entry} {es : List Entry} : found sect name (e :: es) =
    (if makeKey e.sect e.key = makeKey sect name then [e.value] else []) ++ found sect name es := by
  by_cases hkey : makeKey e.sect e.key = makeKey sect name <;> simp [found, hkey]

/-- Entries in the same places that make the same map are the same. -/
theorem pushAll_inj {es es' : List Entry} (hplace : es.map place = es'.map place)
    (h : pushAll values es = pushAll values es') : es = es' := by
  have hfound : ∀ sect name, found sect name es = found sect name es' := by
    intro sect name
    have hget := congrArg (getStrings · sect name) h
    simp only [getStrings_pushAll] at hget
    exact List.append_cancel_left hget
  clear h
  induction es generalizing es' with
  | nil => exact (List.map_eq_nil_iff.mp hplace.symm).symm
  | cons e es ih =>
    cases es' with
    | nil => cases hplace
    | cons e' es' =>
      obtain ⟨hhead, htail⟩ := List.cons.inj hplace
      obtain ⟨hsect, hkey⟩ := Prod.mk.inj hhead
      have hsame := hfound e.sect e.key
      rw [found_cons, found_cons, if_pos rfl, if_pos (by rw [hsect, hkey])] at hsame
      obtain ⟨hvalue, -⟩ := List.cons.inj hsame
      have heq : e = e' := by
        cases e
        cases e'
        simp_all
      subst heq
      congr 1
      refine ih htail fun sect name => ?_
      have hrest := hfound sect name
      rw [found_cons, found_cons] at hrest
      exact List.append_cancel_left hrest

/-- **Which rewritings keep the meaning of a file.** A file of the `=` format and the one with some entries
rewritten to `:` have the same result, from every `m_values`, exactly if all values are kept. -/
theorem colon_iff (newline : Bool) (h : Valid false (rs.map Rewrite.item)) (hrs : ∀ r ∈ rs, r.Valid)
    (values : Values) (buf : Bytes) :
    parse values buf (some (renderAs newline rs)) = parse values buf (some (render newline (rs.map Rewrite.item))) ↔
      Kept newline buf rs := by
  obtain ⟨ls₀, hls₀, herr₀, hentries₀⟩ :
      ∃ ls, lines [] [] buf (reads [] (render newline (rs.map Rewrite.item))) = some ls ∧ _ :=
    lines_render h fun h => absurd h Bool.false_ne_true
  have hplain : parse values buf (some (render newline (rs.map Rewrite.item))) =
      some (pushAll values (entriesOf [] [] (rs.map Rewrite.item)), 0) :=
    parse_eq_zero_iff.mpr ⟨ls₀, hls₀, herr₀, by rw [hentries₀]⟩
  have hkey : false = true → ([] : Bytes) ≠ [] := nofun
  rw [hplain, parse_eq_zero_iff, ← lines_renderAs_iff h hrs hkey]
  constructor
  · rintro ⟨ls, hls, -, hvalues⟩
    obtain ⟨-, hplace⟩ := lines_renderAs h hrs hkey hls
    exact ⟨ls, hls, pushAll_inj hplace hvalues.symm⟩
  · rintro ⟨ls, hls, hentries⟩
    exact ⟨ls, hls, (lines_renderAs h hrs hkey hls).1, by rw [hentries]⟩

/-- `k=v` becomes `k: v`. -/
def spaced : Rewrite := .colon ['k'.toUInt8] [] [] ['v'.toUInt8] [] [' '.toUInt8]

/-- `k=v` becomes `k:v`. -/
def bare : Rewrite := .colon ['k'.toUInt8] [] [] ['v'.toUInt8] [] []

theorem valid_spaced : spaced.Valid := ⟨⟨by decide, by decide, by decide, by decide⟩, by decide, by decide⟩

theorem valid_bare : bare.Valid := ⟨⟨by decide, by decide, by decide, by decide⟩, by decide, by decide⟩

theorem colon_iff_spaced : parse ∅ [] (some (renderAs true [spaced])) =
    parse ∅ [] (some (render true [spaced.item])) :=
  have hvalid : ∀ r ∈ [spaced], r.Valid := List.forall_mem_singleton.mpr valid_spaced
  (colon_iff true (by decide) hvalid ∅ []).mpr ⟨.inl (List.cons_ne_nil _ _), trivial⟩

/-- Without a blank the value loses its first byte. -/
theorem not_colon : ¬∀ (newline : Bool) (rs : List Rewrite) (values : Values) (buf : Bytes),
    Valid false (rs.map Rewrite.item) → (∀ r ∈ rs, r.Valid) →
    parse values buf (some (renderAs newline rs)) =
      parse values buf (some (render newline (rs.map Rewrite.item))) := by
  intro h
  have hsame := h true [bare] ∅ [] (by decide) (List.forall_mem_singleton.mpr valid_bare)
  have hcolon : parse ∅ [] (some (renderAs true [bare])) =
      some (push ∅ ['.'.toUInt8, 'k'.toUInt8] [], 0) := rfl
  have hequals : parse ∅ [] (some (render true [bare.item])) =
      some (push ∅ ['.'.toUInt8, 'k'.toUInt8] ['v'.toUInt8], 0) := rfl
  have hmap := (Prod.mk.inj (Option.some.inj (hcolon.symm.trans (hsame.trans hequals)))).1
  have hlookup := congrArg (AList.lookup ['.'.toUInt8, 'k'.toUInt8]) hmap
  rw [push, push, AList.lookup_insert, AList.lookup_insert] at hlookup
  have hvalue := congrArg Subtype.val (Option.some.inj hlookup)
  cases hvalue

end NetLibrary.Conf
