import NetLibrary.Verify.Conf.Entries

/-!
# Entries under different sections and names

All entries share one map under the composed key `section.name`. Two pairs that differ compose to the same
key exactly if they cut one text at two of its dots (`makeKey_eq_iff`). `isolated_iff` says that these are
the pairs that are not isolated from each other: a file that writes an entry under the second pair can be
cut off before and after it.
-/

namespace NetLibrary.Conf

variable {s₁ n₁ s₂ n₂ sect key name buf file : Bytes} {e : Entry} {es es' : List Entry}

/-- What `makeKey` does to the case of a name. -/
def lower (t : Bytes) : Bytes := t.map tolower

/-! ## The composed key -/

/-- The two pairs are the same text `a.t.b`, cut at different dots. -/
def Shifted (s₁ n₁ s₂ n₂ : Bytes) : Prop :=
  ∃ t, (lower s₂ = lower s₁ ++ '.'.toUInt8 :: t ∧ lower n₁ = t ++ '.'.toUInt8 :: lower n₂) ∨
    (lower s₁ = lower s₂ ++ '.'.toUInt8 :: t ∧ lower n₂ = t ++ '.'.toUInt8 :: lower n₁)

/-- Two cuts of a list at the same element are the same cut or lie one after the other. -/
theorem append_cons_eq_append_cons_iff {α : Type} {a b c d : List α} {x : α} :
    a ++ x :: b = c ++ x :: d ↔ (a = c ∧ b = d) ∨
      ∃ t, (c = a ++ x :: t ∧ b = t ++ x :: d) ∨ (a = c ++ x :: t ∧ d = t ++ x :: b) := by
  constructor
  · intro h
    rcases List.append_eq_append_iff.mp h with ⟨t, hc, hb⟩ | ⟨t, ha, hd⟩
    · cases t with
      | nil =>
        rw [List.append_nil] at hc
        exact .inl ⟨hc.symm, (List.cons.inj hb).2⟩
      | cons y t =>
        rw [List.cons_append, List.cons.injEq] at hb
        obtain ⟨rfl, hb⟩ := hb
        exact .inr ⟨t, .inl ⟨hc, hb⟩⟩
    · cases t with
      | nil =>
        rw [List.append_nil] at ha
        exact .inl ⟨ha, (List.cons.inj hd).2.symm⟩
      | cons y t =>
        rw [List.cons_append, List.cons.injEq] at hd
        obtain ⟨rfl, hd⟩ := hd
        exact .inr ⟨t, .inr ⟨ha, hd⟩⟩
  · rintro (⟨rfl, rfl⟩ | ⟨t, ⟨rfl, rfl⟩ | ⟨rfl, rfl⟩⟩) <;> simp

theorem makeKey_eq_iff : makeKey s₁ n₁ = makeKey s₂ n₂ ↔
    (lower s₁ = lower s₂ ∧ lower n₁ = lower n₂) ∨ Shifted s₁ n₁ s₂ n₂ := by
  have hkey : ∀ s n, makeKey s n = lower s ++ '.'.toUInt8 :: lower n := by
    intro s n
    simp [makeKey, lower, show tolower '.'.toUInt8 = '.'.toUInt8 by decide]
  rw [hkey, hkey, append_cons_eq_append_cons_iff]
  rfl

/-! ## The entries of a file -/

/-- The entries that a file writes, up to its first line that is an error. -/
def writes (buf file : Bytes) : Option (List Entry) := (lines [] [] buf (reads [] file)).map entries

def Entry.under (sect name : Bytes) (e : Entry) : Bool :=
  lower e.sect = lower sect ∧ lower e.key = lower name

/-- The values that were written under this section and name. -/
def own (sect name : Bytes) (es : List Entry) : List Bytes :=
  (es.filter (Entry.under sect name)).map Entry.value

/-- A file that parses without error into an empty `Conf`, and what it writes. -/
def Parses (buf file : Bytes) (es : List Entry) (values : Values) : Prop :=
  parse ∅ buf (some file) = some (values, 0) ∧ writes buf file = some es

theorem parses_iff {values : Values} : Parses buf file es values ↔
    ∃ ls, lines [] [] buf (reads [] file) = some ls ∧ (∀ l ∈ ls, l.err = false) ∧ entries ls = es ∧
      values = pushAll ∅ es := by
  rw [Parses, parse_eq_zero_iff, writes, Option.map_eq_some_iff]
  constructor
  · rintro ⟨⟨ls, hls, herr, rfl⟩, ls', hls', rfl⟩
    obtain rfl := Option.some.inj (hls.symm.trans hls')
    exact ⟨ls, hls, herr, rfl, rfl⟩
  · rintro ⟨ls, hls, herr, rfl, rfl⟩
    exact ⟨⟨ls, hls, herr, rfl⟩, ls, hls, rfl⟩

theorem Parses.getStrings {values : Values} (h : Parses buf file es values) :
    getStrings values sect name = found sect name es := by
  obtain ⟨_, _, _, _, rfl⟩ := parses_iff.mp h
  exact getStrings_pushAll.trans (List.nil_append _)

theorem under_makeKey (h : e.under sect name = true) : makeKey e.sect e.key = makeKey sect name := by
  rw [Entry.under, decide_eq_true_eq] at h
  exact makeKey_eq_iff.mpr (.inl h)

/-- What is found under a pair is what was written under it, unless the file writes a shifted pair. -/
theorem found_eq_own_iff : found sect name es = own sect name es ↔
    ∀ e ∈ es, e.under sect name = false → ¬Shifted e.sect e.key sect name := by
  have hiff : ∀ e : Entry, makeKey e.sect e.key = makeKey sect name ↔
      e.under sect name = true ∨ Shifted e.sect e.key sect name := by
    intro e
    rw [makeKey_eq_iff, Entry.under, decide_eq_true_eq]
  have hsub : (es.filter (Entry.under sect name)).Sublist
      (es.filter fun e => makeKey e.sect e.key = makeKey sect name) :=
    List.monotone_filter_right es fun e he => decide_eq_true (under_makeKey he)
  rw [found, own]
  constructor
  · intro heq e hmem hunder hshift
    have hlen := congrArg List.length heq
    rw [List.length_map, List.length_map] at hlen
    have hmem' : e ∈ es.filter fun e => makeKey e.sect e.key = makeKey sect name :=
      List.mem_filter.mpr ⟨hmem, decide_eq_true ((hiff e).mpr (.inr hshift))⟩
    rw [← hsub.eq_of_length hlen.symm] at hmem'
    rw [(List.mem_filter.mp hmem').2] at hunder
    cases hunder
  · intro hall
    congr 1
    refine List.filter_congr fun e hmem => ?_
    cases hunder : e.under sect name with
    | true => exact decide_eq_true (under_makeKey hunder)
    | false =>
      refine decide_eq_false fun hkey => ?_
      rcases (hiff e).mp hkey with h | h
      · rw [hunder] at h
        cases h
      · exact hall e hmem hunder h

/-! ## Cutting off a file -/

theorem Parses.take {ls : List Line} (h : lines [] [] buf (reads [] file) = some ls)
    (herr : ∀ l ∈ ls, l.err = false) (n : Nat) :
    ∃ file', Parses buf file' (entries (ls.take n)) (pushAll ∅ (entries (ls.take n))) := by
  have herr' : ∀ l ∈ ls.take n, l.err = false := fun l hl => herr l (List.mem_of_mem_take hl)
  refine ⟨firstLines n file, parses_iff.mpr ⟨ls.take n, ?_, herr', rfl, rfl⟩⟩
  rw [reads_firstLines]
  exact lines_take h herr'

/-- A file that writes an entry can be cut off before it and after it. -/
theorem Parses.cut {values : Values} (h : Parses buf file es values) (hmem : e ∈ es) :
    ∃ es' file₁ file₂, Parses buf file₁ es' (pushAll ∅ es') ∧
      Parses buf file₂ (es' ++ [e]) (pushAll ∅ (es' ++ [e])) := by
  obtain ⟨ls, hls, herr, rfl, -⟩ := parses_iff.mp h
  obtain ⟨l, hl, hentry⟩ := List.mem_filterMap.mp hmem
  obtain ⟨n, hn, hget⟩ := List.getElem_of_mem hl
  obtain ⟨file₁, h₁⟩ := Parses.take hls herr n
  obtain ⟨file₂, h₂⟩ := Parses.take hls herr (n + 1)
  have hnext : entries (ls.take (n + 1)) = entries (ls.take n) ++ [e] := by
    rw [List.take_succ_eq_append_getElem hn, entries, List.filterMap_append, hget,
      List.filterMap_cons_some hentry]
    rfl
  exact ⟨_, file₁, file₂, h₁, hnext ▸ h₂⟩

/-! ## Isolation -/

/-- A name that the parser accepts: some file that parses writes an entry under it. -/
def Accepted (sect name : Bytes) : Prop :=
  ∃ buf file es values, Parses buf file es values ∧ ∃ v, ⟨sect, name, v⟩ ∈ es

/-- Two files that differ only in entries under the second pair agree about the first. -/
def Isolated (s₁ n₁ s₂ n₂ : Bytes) : Prop :=
  ∀ buf file es values buf' file' es' values', Parses buf file es values →
    Parses buf' file' es' values' →
    es.filter (! Entry.under s₂ n₂ ·) = es'.filter (! Entry.under s₂ n₂ ·) →
    getStrings values s₁ n₁ = getStrings values' s₁ n₁ ∧ ∀ d, get values s₁ n₁ d = get values' s₁ n₁ d

theorem found_filter (hkey : makeKey s₁ n₁ ≠ makeKey s₂ n₂) :
    found s₁ n₁ (es.filter (! Entry.under s₂ n₂ ·)) = found s₁ n₁ es := by
  rw [found, found, List.filter_filter]
  congr 1
  refine List.filter_congr fun e _ => ?_
  cases hunder : e.under s₂ n₂ with
  | false => exact Bool.and_true _
  | true =>
    rw [Bool.not_true, Bool.and_false]
    exact (decide_eq_false fun h => hkey (h.symm.trans (under_makeKey hunder))).symm

/-- **Which pairs are isolated.** Of two pairs that differ up to case, where the parser accepts the second,
adding or removing entries under the second changes nothing under the first exactly if they are not
shifted; and in a file that parses, what is found under a pair is what was written under it exactly if
the file writes nothing under a pair that is shifted against it. -/
theorem isolated_iff (hne : lower s₁ ≠ lower s₂ ∨ lower n₁ ≠ lower n₂) (hacc : Accepted s₂ n₂) :
    (Isolated s₁ n₁ s₂ n₂ ↔ ¬Shifted s₁ n₁ s₂ n₂) ∧
      ∀ buf file es values, Parses buf file es values →
        (getStrings values s₁ n₁ = own s₁ n₁ es ↔
          ∀ e ∈ es, e.under s₁ n₁ = false → ¬Shifted e.sect e.key s₁ n₁) := by
  refine ⟨⟨fun hiso hshift => ?_, fun hshift => ?_⟩, ?_⟩
  · obtain ⟨buf, file, es, values, hparses, v, hmem⟩ := hacc
    obtain ⟨es', file₁, file₂, h₁, h₂⟩ := hparses.cut hmem
    have hsame := (hiso _ _ _ _ _ _ _ _ h₁ h₂ (by
      rw [List.filter_append, List.filter_cons_of_neg (by simp [Entry.under]), List.filter_nil,
        List.append_nil])).1
    have hkey : makeKey s₂ n₂ = makeKey s₁ n₁ := (makeKey_eq_iff.mpr (.inr hshift)).symm
    have hmore : found s₁ n₁ (es' ++ [⟨s₂, n₂, v⟩]) = found s₁ n₁ es' ++ [v] := by
      simp [found, hkey]
    rw [h₁.getStrings, h₂.getStrings, hmore] at hsame
    simp at hsame
  · have hkey : makeKey s₁ n₁ ≠ makeKey s₂ n₂ := by
      rw [Ne, makeKey_eq_iff, not_or, not_and_or]
      exact ⟨hne, hshift⟩
    intro buf file es values buf' file' es' values' h h' hsame
    have hget : getStrings values s₁ n₁ = getStrings values' s₁ n₁ := by
      rw [h.getStrings, h'.getStrings, ← found_filter hkey, hsame, found_filter hkey]
    exact ⟨hget, fun d => by rw [get_eq, get_eq, hget]⟩
  · intro buf file es values h
    rw [h.getStrings]
    exact found_eq_own_iff

def ofChars (cs : List Char) : Bytes := cs.map Char.toUInt8

def entry₁ : Entry := ⟨ofChars ['a'], ofChars ['b', '.', 'c'], ofChars ['1']⟩

def entry₂ : Entry := ⟨ofChars ['a', '.', 'b'], ofChars ['c'], ofChars ['2']⟩

/-- The first entry in its section. -/
def oneSection : Bytes := ofChars ['[', 'a', ']', '\n', 'b', '.', 'c', '=', '1', '\n']

/-- Both entries, each in its section. -/
def twoSections : Bytes :=
  oneSection ++ ofChars ['[', 'a', '.', 'b', ']', '\n', 'c', '=', '2', '\n']

theorem parses_oneSection : Parses [] oneSection [entry₁] (pushAll ∅ [entry₁]) := by
  have hls : lines [] [] [] (reads [] oneSection) = some [⟨entry₁.sect, [], false, none⟩,
      ⟨entry₁.sect, entry₁.key, false, some entry₁.value⟩] := by decide
  exact parses_iff.mpr ⟨_, hls, by decide, by decide, rfl⟩

theorem parses_twoSections : Parses [] twoSections [entry₁, entry₂] (pushAll ∅ [entry₁, entry₂]) := by
  have hls : lines [] [] [] (reads [] twoSections) = some [⟨entry₁.sect, [], false, none⟩,
      ⟨entry₁.sect, entry₁.key, false, some entry₁.value⟩, ⟨entry₂.sect, [], false, none⟩,
      ⟨entry₂.sect, entry₂.key, false, some entry₂.value⟩] := by decide
  exact parses_iff.mpr ⟨_, hls, by decide, by decide, rfl⟩

theorem accepted_entry₁ : Accepted entry₁.sect entry₁.key :=
  ⟨_, _, _, _, parses_twoSections, _, List.mem_cons_self⟩

theorem accepted_entry₂ : Accepted entry₂.sect entry₂.key :=
  ⟨_, _, _, _, parses_twoSections, _, List.mem_cons_of_mem _ List.mem_cons_self⟩

/-- `[a]` with `b.c` and `[a.b]` with `c` differ and are not isolated. -/
theorem not_isolated : Accepted entry₁.sect entry₁.key ∧ Accepted entry₂.sect entry₂.key ∧
    lower entry₁.sect ≠ lower entry₂.sect ∧
      ¬Isolated entry₁.sect entry₁.key entry₂.sect entry₂.key := by
  refine ⟨accepted_entry₁, accepted_entry₂, by decide, fun hiso => ?_⟩
  have hsame := (hiso _ _ _ _ _ _ _ _ parses_oneSection parses_twoSections (by decide)).1
  rw [parses_oneSection.getStrings, parses_twoSections.getStrings] at hsame
  revert hsame
  decide

/-- `[a]` with `c` is isolated from `[a.b]` with `c`. -/
theorem isolated_iff_twoSections :
    Isolated entry₁.sect entry₂.key entry₂.sect entry₂.key := by
  have hkey : makeKey entry₁.sect entry₂.key ≠ makeKey entry₂.sect entry₂.key := by decide
  exact (isolated_iff (.inl (by decide)) accepted_entry₂).1.mpr fun hshift =>
    hkey (makeKey_eq_iff.mpr (.inr hshift))

end NetLibrary.Conf
