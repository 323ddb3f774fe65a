import NetLibrary.Verify.Conf.Reads

/-!
# The entries of a file

`parse` is its lines, one after the other (`lines`), and a fold over what they write
(`parse_eq_zero_iff`). What `get` and `getStrings` find in the map is what was written under the same
composed key, in the order of the file (`getStrings_pushAll`).
-/

namespace NetLibrary.Conf

variable {values : Values} {sect name key k k' v buf file : Bytes}

/-- A value that a file writes under a section and a key. -/
structure Entry where
  sect : Bytes
  key : Bytes
  value : Bytes
  deriving DecidableEq, Repr

def Line.written (l : Line) : Option Entry := l.value.map fun v => ⟨l.sect, l.key, v⟩

/-- The lines of a file, up to the first that is an error. -/
def lines (sect key buf : Bytes) : List Bytes → Option (List Line)
  | [] => some []
  | read :: reads => do
    let l ← parseLine sect key (fill buf read)
    if l.err then return [l]
    else return l :: (← lines l.sect l.key (fill buf read) reads)

/-- The entries of the lines of a file. -/
def entries (ls : List Line) : List Entry := ls.filterMap Line.written

/-! ## What `parse` writes -/

def pushEntry (values : Values) (e : Entry) : Values := push values (makeKey e.sect e.key) e.value

def pushAll (values : Values) (es : List Entry) : Values := es.foldl pushEntry values

/-- A value that is pushed is seen. -/
theorem push_ne : push values k v ≠ values := by
  intro heq
  have hlookup := congrArg (AList.lookup k) heq
  rw [push, AList.lookup_insert] at hlookup
  cases hold : values.lookup k with
  | none =>
    rw [hold] at hlookup
    cases hlookup
  | some l =>
    rw [hold] at hlookup
    have hval := congrArg Subtype.val (Option.some.inj hlookup)
    simp at hval

theorem values_step {s : State} {l : Line} :
    (s.step l).values = pushAll s.values l.written.toList := by
  rcases l with ⟨sect, key, err, _ | v⟩ <;> rfl

theorem values_foldl_step {s : State} {ls : List Line} :
    (ls.foldl State.step s).values = pushAll s.values (entries ls) := by
  induction ls generalizing s with
  | nil => rfl
  | cons l ls ih =>
    have hentries : entries (l :: ls) = l.written.toList ++ entries ls := by
      rw [entries, List.filterMap_cons]
      cases l.written <;> rfl
    rw [List.foldl_cons, ih, values_step, hentries, pushAll, pushAll, pushAll, List.foldl_append]

theorem loop_eq {s : State} {reads : List Bytes} (hs : s.err = false) :
    loop s buf reads = (lines s.sect s.key buf reads).map (·.foldl State.step s) := by
  induction reads generalizing s buf with
  | nil => rfl
  | cons read reads ih =>
    rw [loop, lines, if_neg (by simp [hs])]
    cases parseLine s.sect s.key (fill buf read) with
    | none => rfl
    | some l =>
      simp only [Option.bind_eq_bind, Option.bind_some]
      cases herr : l.err with
      | true =>
        have hstop : ∀ r, loop (s.step l) (fill buf read) r = some (s.step l) := by
          intro r
          cases r with
          | nil => rfl
          | cons => rw [loop, if_pos (show (s.step l).err = true from herr)]
        rw [if_pos rfl, hstop]
        rfl
      | false =>
        rw [if_neg Bool.false_ne_true, ih (s := s.step l) herr]
        change Option.map _ (lines l.sect l.key (fill buf read) reads) = Option.map _ (Option.bind _ _)
        cases lines l.sect l.key (fill buf read) reads <;> rfl

/-- Only the last line that is read can be an error. -/
theorem lines_err {ls : List Line} {reads : List Bytes} {s : State} (hs : s.err = false)
    (h : lines sect key buf reads = some ls) :
    (ls.foldl State.step s).err = false ↔ ∀ l ∈ ls, l.err = false := by
  induction reads generalizing sect key buf ls s with
  | nil =>
    cases h
    simpa using hs
  | cons read reads ih =>
    simp only [lines, Option.bind_eq_bind, Option.bind_eq_some_iff] at h
    obtain ⟨l, -, h⟩ := h
    split at h
    · cases h
      simp [State.step]
    · rename_i herr
      obtain ⟨ls', hls', h⟩ := Option.bind_eq_some_iff.mp h
      cases h
      rw [List.foldl_cons, ih (Bool.eq_false_iff.mpr herr) hls', List.forall_mem_cons]
      simp [herr]

theorem lineno_foldl_step {s : State} {ls : List Line} :
    (ls.foldl State.step s).lineno = s.lineno + ls.length := by
  induction ls generalizing s with
  | nil => rfl
  | cons l ls ih =>
    rw [List.foldl_cons, ih, List.length_cons]
    simp only [State.step]
    omega

/-- `parse` in terms of the lines. -/
theorem parse_eq : parse values buf (some file) = (lines [] [] buf (reads [] file)).map fun ls =>
    (pushAll values (entries ls), if (ls.foldl State.step { values }).err then (ls.length : Int) else 0) := by
  rw [parse, loop_eq rfl]
  cases lines [] [] buf (reads [] file) with
  | none => rfl
  | some ls =>
    simp only [Option.map_some, Option.bind_eq_bind, Option.bind_some, values_foldl_step,
      lineno_foldl_step, Nat.zero_add]
    rfl

/-- `parse` returns 0 exactly if no line is an error, and has then written the entries of the lines. -/
theorem parse_eq_zero_iff {values' : Values} :
    parse values buf (some file) = some (values', 0) ↔
      ∃ ls, lines [] [] buf (reads [] file) = some ls ∧ (∀ l ∈ ls, l.err = false) ∧
        values' = pushAll values (entries ls) := by
  rw [parse_eq, Option.map_eq_some_iff]
  refine exists_congr fun ls => and_congr_right fun hls => ?_
  rw [← lines_err (s := { values }) rfl hls, Prod.mk.injEq]
  cases herr : (ls.foldl State.step { values }).err with
  | false => simp [eq_comm]
  | true =>
    have hne : ls ≠ [] := by
      rintro rfl
      cases herr
    simp [hne]

/-! ## The first lines of a file -/

/-- The first `n` lines of a file, as `fgets` reads them. -/
def firstLines (n : Nat) (file : Bytes) : Bytes := ((reads [] file).take n).flatten

theorem reads_firstLines {n : Nat} : reads [] (firstLines n file) = (reads [] file).take n := by
  obtain ⟨p, hp, hflat⟩ : ∃ p, reads [] p = (reads [] file).take n ∧ [] ++ p = _ := reads_take (.inl rfl)
  rw [firstLines, ← hflat]
  exact hp

theorem lines_take {ls : List Line} {rs : List Bytes} {n : Nat} (h : lines sect key buf rs = some ls)
    (herr : ∀ l ∈ ls.take n, l.err = false) : lines sect key buf (rs.take n) = some (ls.take n) := by
  induction rs generalizing sect key buf ls n with
  | nil =>
    cases h
    rw [List.take_nil, List.take_nil]
    rfl
  | cons read rs ih =>
    cases n with
    | zero => rfl
    | succ n =>
      simp only [lines, Option.bind_eq_bind, Option.bind_eq_some_iff] at h
      obtain ⟨l, hl, h⟩ := h
      split at h
      · rename_i hbad
        cases h
        rw [herr l List.mem_cons_self] at hbad
        cases hbad
      · rename_i hok
        obtain ⟨ls', hls', h⟩ := Option.bind_eq_some_iff.mp h
        cases h
        have hrest := ih hls' fun l hl => herr l (List.mem_cons_of_mem _ hl)
        simp only [List.take_succ_cons, lines, hl, Option.bind_eq_bind, Option.bind_some, if_neg hok, hrest]
        rfl

/-! ## What the map holds -/

theorem getStrings_push {k : Bytes} : getStrings (push values k v) sect name =
    getStrings values sect name ++ if k = makeKey sect name then [v] else [] := by
  unfold getStrings push
  by_cases hk : makeKey sect name = k
  · rw [hk, AList.lookup_insert, if_pos rfl]
    cases values.lookup k <;> rfl
  · rw [AList.lookup_insert_ne hk, if_neg (Ne.symm hk), List.append_nil]

/-- The entries that are under this section and name for the map. -/
def found (sect name : Bytes) (es : List Entry) : List Bytes :=
  (es.filter fun e => makeKey e.sect e.key = makeKey sect name).map Entry.value

theorem getStrings_pushAll {es : List Entry} : getStrings (pushAll values es) sect name =
    getStrings values sect name ++ found sect name es := by
  induction es generalizing values with
  | nil => exact (List.append_nil _).symm
  | cons e es ih =>
    change getStrings (pushAll (pushEntry values e) es) sect name = _
    rw [ih, pushEntry, getStrings_push, List.append_assoc]
    by_cases hk : makeKey e.sect e.key = makeKey sect name <;> simp [hk, found]

/-- `get` is the last of `getStrings`, or the default. -/
theorem get_eq {d : Bytes} : get values sect name d = (getStrings values sect name).getLast?.getD d := by
  unfold get getStrings
  cases values.lookup (makeKey sect name) with
  | none => rfl
  | some l => simp [List.getLast?_eq_getLast_of_ne_nil l.2]

end NetLibrary.Conf
