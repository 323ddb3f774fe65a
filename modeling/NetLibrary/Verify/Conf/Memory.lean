import NetLibrary.Verify.Conf.Entries
import NetLibrary.Verify.Conf.Lines

/-!
# What the line buffer holds behind a line

The memory of the line buffer is not initialised, and the value of a line that ends in its `:` is taken from
behind the NUL of that line. What lies there was left by a longer line before it, and if there was none, it
was never written.
-/

namespace NetLibrary.Conf
open LineScanner

variable {values : Values} {sect key read file t u j : Bytes} {rs before : List Bytes} {n : Nat}

/-! ## One line -/

theorem parseLine_loose (ht : 0 ∉ t) (hloose : LooseColon t) : ∃ k, ∀ j,
    parseLine sect key (t ++ 0 :: j) =
      (consumeTillEnd { p := j }).map fun r => { sect, key := k, value := some r.1 } := by
  obtain ⟨⟨c, hhead, hns, hstart⟩, heq, s, hs, hsplit⟩ := hloose
  obtain ⟨l, rfl⟩ : ∃ l, t = c :: l := ⟨t.tail, List.eq_cons_of_mem_head? hhead⟩
  have hc : (c :: l).dropWhile isspace = c :: l := List.dropWhile_cons_of_neg (by simp [hns])
  refine ⟨s.rdropWhile isspace, fun j => ?_⟩
  rw [parseLine_entry ht hns hstart, parseEntry_colon ht heq hs (hc.trans hsplit)]
  rfl

/-- Whatever lies behind a line, it makes the same of the section, the key and the error. -/
theorem parseLine_kept (ht : 0 ∉ t) : ∃ s k e, ∀ j l, parseLine sect key (t ++ 0 :: j) = some l →
    l.sect = s ∧ l.key = k ∧ l.err = e := by
  by_cases hloose : LooseColon t
  · obtain ⟨k, hk⟩ : ∃ k, ∀ j, parseLine sect key (t ++ 0 :: j) = _ := parseLine_loose ht hloose
    refine ⟨sect, k, false, fun j l hl => ?_⟩
    rw [hk] at hl
    obtain ⟨r, -, rfl⟩ := Option.map_eq_some_iff.mp hl
    exact ⟨rfl, rfl, rfl⟩
  · obtain ⟨l, hl⟩ : ∃ l, ∀ j, parseLine sect key (t ++ 0 :: j) = some l := parseLine_ownText ht hloose
    refine ⟨l.sect, l.key, l.err, fun j l' hl' => ?_⟩
    cases (hl j).symm.trans hl'
    exact ⟨rfl, rfl, rfl⟩

theorem exists_text (u : Bytes) : ∃ t, 0 ∉ t ∧ ∀ j, ∃ j', u ++ 0 :: j = t ++ 0 :: j' := by
  by_cases hu : 0 ∈ u
  · obtain ⟨t, v, rfl, ht⟩ := List.eq_append_cons_of_mem hu
    refine ⟨t, ht, fun j => ⟨v ++ 0 :: j, ?_⟩⟩
    rw [List.append_assoc, List.cons_append]
  · exact ⟨u, hu, fun j => ⟨j, rfl⟩⟩

/-- No line is parsed beyond a second NUL. -/
theorem parseLine_twoTexts (ht : 0 ∉ t) (u : Bytes) :
    ∃ l, ∀ j, parseLine sect key (t ++ 0 :: (u ++ 0 :: j)) = some l := by
  by_cases hloose : LooseColon t
  · obtain ⟨k, hk⟩ : ∃ k, ∀ j, parseLine sect key (t ++ 0 :: j) = _ := parseLine_loose ht hloose
    obtain ⟨v, hv, hsame⟩ := exists_text u
    refine ⟨{ sect, key := k, value := some (valueOf v) }, fun j => ?_⟩
    obtain ⟨j', hj⟩ := hsame j
    rw [hk, hj, consumeTillEnd_text hv]
    rfl
  · obtain ⟨l, hl⟩ : ∃ l, ∀ j, parseLine sect key (t ++ 0 :: j) = some l := parseLine_ownText ht hloose
    exact ⟨l, fun j => hl _⟩

/-- Bytes that end no value. -/
def Junk (j : Bytes) : Prop := ∀ c ∈ j, c ≠ 0 ∧ endsValue c = false

theorem Junk.not_isspace (h : Junk j) : ∀ c ∈ j, isspace c = false := by
  intro c hc
  cases hsp : isspace c with
  | false => rfl
  | true =>
    rw [← (h c hc).2]
    exact (endsValue_of_isspace hsp).symm

theorem Junk.till (h : Junk j) : till endsValue j = none := by
  induction j with
  | nil => rfl
  | cons c j ih =>
    rw [LineScanner.till, if_pos (h c List.mem_cons_self), ih fun d hd => h d (List.mem_cons_of_mem c hd)]
    rfl

theorem Junk.consumeTillEnd (h : Junk j) : consumeTillEnd { p := j } = none := by
  cases j with
  | nil => rfl
  | cons c j =>
    have hspaces : spaces (c :: j) = some (c :: j) := by
      rw [spaces, if_neg fun hc => by simp [h.not_isspace c List.mem_cons_self] at hc]
    have hskip : skipSpace { p := c :: j } = some { p := c :: j } := by
      rw [skipSpace, if_neg Bool.false_ne_true, hspaces]
      rfl
    rw [LineScanner.consumeTillEnd, hskip, Option.bind_eq_bind, Option.bind_some, if_neg Bool.false_ne_true]
    change (LineScanner.till endsValue (c :: j)).bind _ = none
    rw [h.till]
    rfl

theorem parseLine_junk (ht : 0 ∉ t) (hloose : LooseColon t) (hj : Junk j) :
    parseLine sect key (t ++ 0 :: j) = none := by
  obtain ⟨k, hk⟩ : ∃ k, ∀ j, parseLine sect key (t ++ 0 :: j) = _ := parseLine_loose ht hloose
  rw [hk, hj.consumeTillEnd]
  rfl

/-! ## The buffer after some lines -/

/-- A line that is not longer leaves alone what lies behind this one. -/
theorem drop_fill {b r : Bytes} (h : r.length ≤ n) : (fill b r).drop (n + 1) = b.drop (n + 1) := by
  have hle : r.length ≤ n + 1 := Nat.le_succ_of_le h
  obtain ⟨m, hm⟩ : ∃ m, n + 1 - r.length = m + 1 := ⟨n - r.length, by omega⟩
  rw [fill, List.drop_append, List.drop_eq_nil_of_le hle, List.nil_append, hm, List.drop_succ_cons,
    List.drop_drop]
  congr 1
  omega

theorem drop_foldl_fill {b : Bytes} (h : ∀ r ∈ rs, r.length ≤ n) :
    (rs.foldl fill b).drop (n + 1) = b.drop (n + 1) := by
  induction rs generalizing b with
  | nil => rfl
  | cons r rs ih =>
    rw [List.foldl_cons, ih fun r' hr' => h r' (List.mem_cons_of_mem r hr'), drop_fill (h r List.mem_cons_self)]

/-- A longer line leaves its own bytes there, up to its NUL. -/
theorem drop_foldl_fill_longer (h : ∃ r ∈ rs, n < r.length) :
    ∃ u, ∀ b, ∃ j, (rs.foldl fill b).drop (n + 1) = u ++ 0 :: j := by
  induction rs using List.reverseRecOn with
  | nil =>
    obtain ⟨r, hr, -⟩ := h
    cases hr
  | append_singleton rs r ih =>
    simp only [List.foldl_concat]
    rcases Nat.lt_or_ge n r.length with hlt | hge
    · refine ⟨r.drop (n + 1), fun b => ⟨(rs.foldl fill b).drop (r.length + 1), ?_⟩⟩
      rw [fill, List.drop_append_of_le_length hlt]
    · simp only [drop_fill hge]
      apply ih
      obtain ⟨r', hr', hlt⟩ := h
      rcases List.mem_append.mp hr' with hmem | hmem
      · exact ⟨r', hmem, hlt⟩
      · cases List.mem_singleton.mp hmem
        exact absurd hlt (Nat.not_lt.mpr hge)

/-! ## All lines -/

/-- A line is parsed from what was read, unless it is a `LooseColon` and no line before was longer. -/
theorem parseLine_fill (h : LooseColon read → 0 ∉ read → ∃ r ∈ before, read.length < r.length) :
    ∃ l, ∀ b, parseLine sect key (fill (before.foldl fill b) read) = some l := by
  by_cases h0 : 0 ∈ read
  · obtain ⟨t, u, rfl, ht⟩ := List.eq_append_cons_of_mem h0
    obtain ⟨l, hl⟩ : ∃ l, ∀ j, parseLine sect key (t ++ 0 :: (u ++ 0 :: j)) = some l :=
      parseLine_twoTexts ht u
    refine ⟨l, fun b => ?_⟩
    rw [fill, List.append_assoc, List.cons_append, hl]
  by_cases hloose : LooseColon read
  · obtain ⟨u, hu⟩ := drop_foldl_fill_longer (h hloose h0)
    obtain ⟨l, hl⟩ : ∃ l, ∀ j, parseLine sect key (read ++ 0 :: (u ++ 0 :: j)) = some l :=
      parseLine_twoTexts h0 u
    refine ⟨l, fun b => ?_⟩
    obtain ⟨j, hj⟩ := hu b
    rw [fill, hj, hl]
  · obtain ⟨l, hl⟩ : ∃ l, ∀ j, parseLine sect key (read ++ 0 :: j) = some l := parseLine_ownText h0 hloose
    exact ⟨l, fun b => hl _⟩

/-- Lines that are accepted. -/
def Accepts (sect key buf : Bytes) (rs : List Bytes) : Prop :=
  ∃ ls, lines sect key buf rs = some ls ∧ ∀ l ∈ ls, l.err = false

theorem accepts_nil {buf : Bytes} : Accepts sect key buf [] := ⟨[], rfl, fun _ h => absurd h List.not_mem_nil⟩

theorem accepts_cons {buf : Bytes} : Accepts sect key buf (read :: rs) ↔
    ∃ l, parseLine sect key (fill buf read) = some l ∧ l.err = false ∧
      Accepts l.sect l.key (fill buf read) rs := by
  constructor
  · rintro ⟨ls, hls, herr⟩
    obtain ⟨l, hl, hls⟩ := Option.bind_eq_some_iff.mp hls
    split at hls
    · rename_i hbad
      cases hls
      exact absurd (herr l List.mem_cons_self) (by simp [hbad])
    · obtain ⟨ls', hls', hls⟩ := Option.bind_eq_some_iff.mp hls
      cases hls
      exact ⟨l, hl, herr l List.mem_cons_self, ls', hls', fun l' h => herr l' (List.mem_cons_of_mem l h)⟩
  · rintro ⟨l, hl, hok, ls, hls, herr⟩
    refine ⟨l :: ls, ?_, List.forall_mem_cons.mpr ⟨hok, herr⟩⟩
    simp only [lines, hl, Option.bind_eq_bind, Option.bind_some, hok, Bool.false_eq_true, if_false, hls]
    rfl

theorem accepts_iff {buf : Bytes} :
    Accepts [] [] buf (reads [] file) ↔ ∃ values', parse values buf (some file) = some (values', 0) := by
  simp only [parse_eq_zero_iff]
  constructor
  · rintro ⟨ls, hls, herr⟩
    exact ⟨_, ls, hls, herr, rfl⟩
  · rintro ⟨-, ls, hls, herr, -⟩
    exact ⟨ls, hls, herr⟩

/-- Unless an exposed line is reached, the lines are the same in every buffer. -/
theorem lines_same (h : ∀ n read, rs[n]? = some read → LooseColon read → 0 ∉ read →
      (∀ r ∈ before ++ rs.take n, r.length ≤ read.length) →
      ∀ b, b.length = maxSize → ¬Accepts sect key (before.foldl fill b) (rs.take n)) :
    ∃ ls, ∀ b, b.length = maxSize → lines sect key (before.foldl fill b) rs = some ls := by
  induction rs generalizing before sect key with
  | nil => exact ⟨[], fun _ _ => rfl⟩
  | cons read rs ih =>
    have hmem : LooseColon read → 0 ∉ read → ∃ r ∈ before, read.length < r.length := by
      intro hloose h0
      by_contra hnone
      simp only [not_exists, not_and, Nat.not_lt] at hnone
      refine h 0 read rfl hloose h0 (by simpa using hnone) (List.replicate maxSize 0) List.length_replicate ?_
      exact accepts_nil
    obtain ⟨l, hl⟩ : ∃ l, ∀ b, parseLine sect key (fill (before.foldl fill b) read) = some l := parseLine_fill hmem
    cases herr : l.err with
    | true =>
      refine ⟨[l], fun b _ => ?_⟩
      simp only [lines, hl, Option.bind_eq_bind, Option.bind_some, herr, if_true]
      rfl
    | false =>
      obtain ⟨ls, hls⟩ : ∃ ls, ∀ b, b.length = maxSize →
          lines l.sect l.key ((before ++ [read]).foldl fill b) rs = some ls := by
        apply ih
        intro n read' hread hloose h0 hlen b hb hacc
        refine h (n + 1) read' hread hloose h0 (by simpa using hlen) b hb ?_
        rw [List.foldl_concat] at hacc
        exact accepts_cons.mpr ⟨l, hl b, herr, hacc⟩
      refine ⟨l :: ls, fun b hb => ?_⟩
      have hrest := hls b hb
      rw [List.foldl_concat] at hrest
      simp only [lines, hl, Option.bind_eq_bind, Option.bind_some, herr, Bool.false_eq_true, if_false, hrest]
      rfl

/-- A line that no buffer makes sense of, behind lines that one buffer accepts. -/
theorem lines_stuck {buf buf' : Bytes} (hacc : Accepts sect key buf before)
    (hstuck : ∀ s k, parseLine s k (fill (before.foldl fill buf') read) = none) :
    lines sect key buf' (before ++ read :: rs) = none := by
  induction before generalizing sect key buf buf' with
  | nil =>
    rw [List.nil_append, lines, show parseLine sect key (fill buf' read) = none from hstuck sect key]
    rfl
  | cons r before ih =>
    obtain ⟨l, hl, hok, hacc⟩ := accepts_cons.mp hacc
    obtain ⟨t, ht, hfill⟩ := exists_text r
    obtain ⟨s, k, e, hkept⟩ : ∃ s k e, ∀ j l, parseLine sect key (t ++ 0 :: j) = some l → _ := parseLine_kept ht
    have hsame : ∀ b l', parseLine sect key (fill b r) = some l' → l'.sect = s ∧ l'.key = k ∧ l'.err = e := by
      intro b l' hl'
      obtain ⟨j, hj⟩ := hfill (b.drop (r.length + 1))
      rw [fill, hj] at hl'
      exact hkept j l' hl'
    obtain ⟨rfl, rfl, rfl⟩ := hsame buf l hl
    rw [List.cons_append, lines]
    cases hl' : parseLine sect key (fill buf' r) with
    | none => rfl
    | some l' =>
      obtain ⟨hs, hk, he⟩ := hsame buf' l' hl'
      have hrest : lines l'.sect l'.key (fill buf' r) (before ++ read :: rs) = none := by
        rw [hs, hk]
        exact ih hacc hstuck
      rw [Option.bind_eq_bind, Option.bind_some, if_neg (by simp [he, hok]), hrest]
      rfl

/-- A line whose value is taken from memory that was never written. -/
structure Exposed (file : Bytes) (n : Nat) (read : Bytes) : Prop where
  line : (reads [] file)[n]? = some read
  loose : LooseColon read
  no_nul : 0 ∉ read
  longest : ∀ r ∈ (reads [] file).take n, r.length ≤ read.length

/-- **When a file alone decides.** `parse` returns the same for every content of its line buffer, and reads
nothing outside the buffer, exactly unless it gets to a line without NUL that is an entry without `=`, ends in
its first `:`, and is at least as long as every line before it. -/
theorem parse_same_iff (values : Values) (file : Bytes) :
    (∃ r, ∀ buf, buf.length = maxSize → parse values buf (some file) = some r) ↔
      ¬∃ n read, Exposed file n read ∧ ∃ buf values', buf.length = maxSize ∧
        parse values buf (some (firstLines n file)) = some (values', 0) := by
  constructor
  · rintro ⟨r, hr⟩ ⟨n, read, hexp, buf, values', -, hreached⟩
    have hacc := accepts_iff.mpr ⟨values', hreached⟩
    rw [reads_firstLines] at hacc
    have hjunk : Junk ((List.replicate maxSize 'x'.toUInt8).drop (read.length + 1)) := by
      intro c hc
      cases List.eq_of_mem_replicate (List.mem_of_mem_drop hc)
      decide
    have hstuck : ∀ s k, parseLine s k
        (fill (((reads [] file).take n).foldl fill (List.replicate maxSize 'x'.toUInt8)) read) = none := by
      intro s k
      rw [fill, drop_foldl_fill hexp.longest]
      exact parseLine_junk hexp.no_nul hexp.loose hjunk
    have hsplit : reads [] file = (reads [] file).take n ++ read :: (reads [] file).drop (n + 1) := by
      obtain ⟨hn, rfl⟩ := List.getElem?_eq_some_iff.mp hexp.line
      rw [List.getElem_cons_drop, List.take_append_drop]
    have hnone : lines [] [] (List.replicate maxSize 'x'.toUInt8) (reads [] file) = none := by
      rw [hsplit]
      exact lines_stuck hacc hstuck
    have hsome := hr (List.replicate maxSize 'x'.toUInt8) List.length_replicate
    rw [parse_eq, hnone] at hsome
    cases hsome
  · intro hnone
    obtain ⟨ls, hls⟩ : ∃ ls, ∀ b, b.length = maxSize →
        lines [] [] ([].foldl fill b) (reads [] file) = some ls := by
      apply lines_same
      intro n read hread hloose h0 hlen b hb hacc
      rw [List.foldl_nil, ← reads_firstLines] at hacc
      obtain ⟨values', hparse⟩ := accepts_iff.mp hacc
      exact hnone ⟨n, read, ⟨hread, hloose, h0, hlen⟩, b, values', hb, hparse⟩
    refine ⟨(pushAll values (entries ls),
      if (ls.foldl State.step { values }).err then (ls.length : Int) else 0), fun buf hbuf => ?_⟩
    rw [parse_eq, show lines [] [] buf (reads [] file) = some ls from hls buf hbuf]
    rfl

end NetLibrary.Conf
