import NetLibrary.Model.Slice

/-!
# The words of a slice

`eatWord`, called until it returns an empty slice, yields the maximal runs of bytes that are no space, in
order. `trimSpace` takes the spaces before the first and after the last of them away, so that it
leaves the list alone.
-/

namespace NetLibrary.Slice

open Span

variable {mem : Nat → UInt8} {isspace : UInt8 → Bool} {s w w' : Slice} {ws ws' : List Slice} {b e b' e' n a : Nat}

section

variable (mem isspace)

/-- The addresses from `b` up to `e` hold spaces only. -/
def Spaces (b e : Nat) : Prop := ∀ a, b ≤ a → a < e → isspace (mem a) = true

/-- The addresses from `b` up to `e` hold no space. -/
def Solid (b e : Nat) : Prop := ∀ a, b ≤ a → a < e → isspace (mem a) = false

/-- A maximal run of bytes of `s` that are no space. -/
structure MaximalRun (s w : Slice) : Prop where
  nonempty : w.pb < w.pe
  start : s.pb ≤ w.pb
  stop : w.pe ≤ s.pe
  solid : Solid mem isspace w.pb w.pe
  left : s.pb < w.pb → isspace (mem (w.pb - 1)) = true
  right : w.pe < s.pe → isspace (mem w.pe) = true

/-- `ws` are the words between the addresses `b` and `e`: spaces, then a word up to a space or to `e`, and
so on. -/
def Words (e : Nat) : Nat → List Slice → Prop
  | b, [] => Spaces mem isspace b e
  | b, w :: ws => b ≤ w.pb ∧ Spaces mem isspace b w.pb ∧ w.pb < w.pe ∧ Solid mem isspace w.pb w.pe ∧
      w.pe ≤ e ∧ (w.pe < e → isspace (mem w.pe) = true) ∧ Words e w.pe ws

/-- What one call of `eatWord` does: it skips spaces, and then returns what it takes up to the next. -/
structure Eaten (s w s' : Slice) : Prop where
  skipped : Spaces mem isspace s.pb w.pb
  start : s.pb ≤ w.pb
  solid : Solid mem isspace w.pb w.pe
  rest : s'.pb = w.pe ∧ s'.pe = s.pe
  stop : w.pe < s.pe → isspace (mem w.pe) = true
  nonempty : w.pb < s.pe → w.pb < w.pe

end

theorem eatWord_eaten (mem : Nat → UInt8) (isspace : UInt8 → Bool) (s : Slice) :
    Eaten mem isspace s (s.eatWord mem isspace).1 (s.eatWord mem isspace).2 := by
  have hle := s.le
  have hb : scan isspace mem (s.pe - s.pb) s.pb ≤ s.pe :=
    Nat.le_trans scan_le (Nat.le_of_eq (Nat.add_sub_of_le s.le))
  constructor
  case skipped => exact fun a ha hlt => of_lt_scan ha hlt
  case start => exact le_scan
  case solid => exact fun a ha hlt => by simpa using of_lt_scan ha hlt
  case rest => exact ⟨rfl, rfl⟩
  case stop =>
    intro hlt
    have hstop : (!isspace (mem (s.eatWord mem isspace).1.pe)) = false :=
      scan_stop (by rwa [Nat.add_sub_of_le hb])
    simpa using hstop
  case nonempty =>
    intro hlt
    have hstop := scan_stop (by rwa [Nat.add_sub_of_le s.le])
    obtain ⟨n, hn⟩ : ∃ n, s.pe - scan isspace mem (s.pe - s.pb) s.pb = n + 1 :=
      Nat.exists_eq_add_one.mpr (Nat.sub_pos_of_lt hlt)
    show scan isspace mem (s.pe - s.pb) s.pb < scan _ mem (s.pe - scan isspace mem (s.pe - s.pb) s.pb) _
    rw [hn, scan, if_pos (by simp [hstop])]
    exact Nat.lt_of_lt_of_le (Nat.lt_succ_self _) le_scan

/-- An empty word ends the slice. -/
theorem Eaten.spaces {s' : Slice} (E : Eaten mem isspace s w s') (hempty : w.empty = true) :
    Spaces mem isspace s.pb s.pe := by
  have hw : w.pb = w.pe := of_decide_eq_true hempty
  have hend : ¬w.pb < s.pe := fun hlt => by
    have := E.nonempty hlt
    omega
  intro a hba hae
  exact E.skipped a hba (by omega)

/-- Eating words comes to an end, with the words of the slice. -/
theorem eatWords_words (mem : Nat → UInt8) (isspace : UInt8 → Bool) (hn : s.size < n) :
    ∃ ws, eatWords mem isspace n s = some ws ∧ Words mem isspace s.pe s.pb ws := by
  induction n generalizing s with
  | zero => exact absurd hn (Nat.not_lt_zero _)
  | succ n ih =>
    have E := eatWord_eaten mem isspace s
    rw [eatWords]
    generalize s.eatWord mem isspace = r at E
    obtain ⟨w, s'⟩ := r
    dsimp only at E ⊢
    split
    case isTrue hempty => exact ⟨[], rfl, E.spaces hempty⟩
    case isFalse hempty =>
      obtain ⟨hpb, hpe⟩ := E.rest
      have hne : w.pb < w.pe := Nat.lt_of_le_of_ne w.le fun h => hempty (decide_eq_true h)
      have hlt : s'.size < n := by
        have := E.start
        have := s'.le
        simp only [size] at hn ⊢
        omega
      obtain ⟨ws, hrun, hwords⟩ := ih hlt
      refine ⟨w :: ws, by rw [hrun, Option.map_some], ?_⟩
      rw [hpb, hpe] at hwords
      exact ⟨E.start, E.skipped, hne, E.solid, hpb ▸ hpe ▸ s'.le, E.stop, hwords⟩

/-- A word that lies behind spaces starts behind all of them. -/
theorem Spaces.le_start (hspaces : Spaces mem isspace b e) (hb : b ≤ w.pb) (hne : w.pb < w.pe)
    (hsolid : Solid mem isspace w.pb w.pe) : e ≤ w.pb := by
  by_contra hlt
  have hspace := hspaces w.pb hb (Nat.not_le.mp hlt)
  rw [hsolid w.pb (Nat.le_refl _) hne] at hspace
  cases hspace

/-- A word that starts before a space or the end stops there at the latest. -/
theorem Solid.stop_le (hsolid : Solid mem isspace w.pb w.pe) (hb : w.pb ≤ b) (he : w.pe ≤ e)
    (hstop : b < e → isspace (mem b) = true) : w.pe ≤ b := by
  by_contra hlt
  have hspace := hstop (by omega)
  rw [hsolid b hb (Nat.not_le.mp hlt)] at hspace
  cases hspace

namespace Words

theorem of_mem (W : Words mem isspace e b ws) (hw : w ∈ ws) :
    b ≤ w.pb ∧ w.pb < w.pe ∧ w.pe ≤ e ∧ Solid mem isspace w.pb w.pe ∧
      (w.pe < e → isspace (mem w.pe) = true) := by
  induction ws generalizing b with
  | nil => cases hw
  | cons v ws ih =>
    obtain ⟨hb, _, hne, hsolid, he, hstop, W⟩ := W
    rcases List.mem_cons.mp hw with rfl | hw
    · exact ⟨hb, hne, he, hsolid, hstop⟩
    · obtain ⟨hle, hrest⟩ := ih W hw
      exact ⟨by omega, hrest⟩

theorem ordered (W : Words mem isspace e b ws) : ws.Pairwise fun p q => p.pe < q.pb := by
  induction ws generalizing b with
  | nil => exact List.Pairwise.nil
  | cons w ws ih =>
    obtain ⟨_, _, _, _, _, hstop, W⟩ := W
    refine List.pairwise_cons.mpr ⟨fun q hq => ?_, ih W⟩
    obtain ⟨hle, hne, he, hsolid, _⟩ := W.of_mem hq
    -- at the end of a word is a space, which the next word does not start with
    refine Nat.lt_of_le_of_ne hle fun heq => ?_
    have hspace := hstop (by omega)
    rw [heq, hsolid q.pb (Nat.le_refl _) hne] at hspace
    cases hspace

theorem skipped (W : Words mem isspace e b ws) (hb : b ≤ a) (he : a < e)
    (hout : ∀ w ∈ ws, ¬(w.pb ≤ a ∧ a < w.pe)) : isspace (mem a) = true := by
  induction ws generalizing b with
  | nil => exact W a hb he
  | cons w ws ih =>
    obtain ⟨_, hspaces, _, _, _, _, W⟩ := W
    rcases Nat.lt_or_ge a w.pb with hlt | hge
    · exact hspaces a hb hlt
    · have hpast : w.pe ≤ a := by
        by_contra hin
        exact hout w List.mem_cons_self ⟨hge, Nat.not_le.mp hin⟩
      exact ih W hpast fun w' hw' => hout w' (List.mem_cons_of_mem _ hw')

theorem maximalRun (W : Words mem isspace s.pe b ws) (hsb : s.pb ≤ b)
    (hprev : s.pb < b → b < s.pe → isspace (mem b) = true) (hw : w ∈ ws) : MaximalRun mem isspace s w := by
  induction ws generalizing b with
  | nil => cases hw
  | cons v ws ih =>
    obtain ⟨hb, hspaces, hne, hsolid, he, hstop, W⟩ := W
    rcases List.mem_cons.mp hw with rfl | hw
    · refine ⟨hne, Nat.le_trans hsb hb, he, hsolid, fun hleft => ?_, hstop⟩
      rcases Nat.eq_or_lt_of_le hb with rfl | hlt
      · have hspace := hprev hleft (by omega)
        rw [hsolid _ (Nat.le_refl _) hne] at hspace
        cases hspace
      · exact hspaces _ (by omega) (by omega)
    · exact ih W (by omega) (fun _ => hstop) hw

theorem mem_of_maximalRun (W : Words mem isspace s.pe b ws) (hsb : s.pb ≤ b)
    (M : MaximalRun mem isspace s w) (hb : b ≤ w.pb) : w ∈ ws := by
  induction ws generalizing b with
  | nil => exact absurd (W.le_start hb M.nonempty M.solid) (Nat.not_le.mpr (Nat.lt_of_lt_of_le M.nonempty M.stop))
  | cons v ws ih =>
    obtain ⟨hbv, hspaces, hne, hsolid, he, hstop, W⟩ := W
    rcases Nat.lt_or_ge w.pb v.pe with hlt | hge
    · have hstart : v.pb ≤ w.pb := hspaces.le_start hb M.nonempty M.solid
      have hpb : v.pb = w.pb := by
        refine Nat.le_antisymm hstart (Nat.not_lt.mp fun hin => ?_)
        have hspace := M.left (by omega)
        rw [hsolid (w.pb - 1) (by omega) (by omega)] at hspace
        cases hspace
      have hpe : w.pe = v.pe :=
        Nat.le_antisymm (M.solid.stop_le (Nat.le_of_lt hlt) M.stop hstop)
          (hsolid.stop_le (hpb ▸ Nat.le_of_lt M.nonempty) he M.right)
      rw [Slice.ext hpb.symm hpe]
      exact List.mem_cons_self
    · exact List.mem_cons_of_mem _ (ih W (by omega) hge)

theorem unique (W : Words mem isspace e b ws) (W' : Words mem isspace e b ws') : ws = ws' := by
  induction ws generalizing b ws' with
  | nil =>
    cases ws' with
    | nil => rfl
    | cons w' ws' =>
      obtain ⟨hb, _, hne, hsolid, he, _⟩ := W'
      exact absurd (Spaces.le_start W hb hne hsolid) (Nat.not_le.mpr (Nat.lt_of_lt_of_le hne he))
  | cons w ws ih =>
    cases ws' with
    | nil =>
      obtain ⟨hb, _, hne, hsolid, he, _⟩ := W
      exact absurd (Spaces.le_start W' hb hne hsolid) (Nat.not_le.mpr (Nat.lt_of_lt_of_le hne he))
    | cons w' ws' =>
      obtain ⟨hb, hspaces, hne, hsolid, he, hstop, W⟩ := W
      obtain ⟨hb', hspaces', hne', hsolid', he', hstop', W'⟩ := W'
      have hpb : w.pb = w'.pb :=
        Nat.le_antisymm (hspaces.le_start hb' hne' hsolid') (hspaces'.le_start hb hne hsolid)
      have hpe : w.pe = w'.pe :=
        Nat.le_antisymm (hsolid.stop_le (hpb ▸ Nat.le_of_lt hne') he hstop')
          (hsolid'.stop_le (hpb ▸ Nat.le_of_lt hne) he' hstop)
      rw [Slice.ext hpb hpe, ih W (hpe ▸ W')]

/-- Spaces in front of a text have no words. -/
theorem of_spaces_left (W : Words mem isspace e b ws) (hb : b' ≤ b) (hspaces : Spaces mem isspace b' b) :
    Words mem isspace e b' ws := by
  have hextend : ∀ {c}, Spaces mem isspace b c → Spaces mem isspace b' c := by
    intro c h a hba hac
    rcases Nat.lt_or_ge a b with hlt | hge
    · exact hspaces a hba hlt
    · exact h a hge hac
  cases ws with
  | nil => exact hextend W
  | cons w ws =>
    obtain ⟨hbw, hw, hrest⟩ := W
    exact ⟨Nat.le_trans hb hbw, hextend hw, hrest⟩

/-- Spaces behind a text have no words. -/
theorem of_spaces_right (W : Words mem isspace e b ws) (he : e ≤ e') (hspaces : Spaces mem isspace e e') :
    Words mem isspace e' b ws := by
  induction ws generalizing b with
  | nil =>
    intro a hba hae
    rcases Nat.lt_or_ge a e with hlt | hge
    · exact W a hba hlt
    · exact hspaces a hge hae
  | cons w ws ih =>
    obtain ⟨hb, hw, hne, hsolid, hwe, hstop, W⟩ := W
    refine ⟨hb, hw, hne, hsolid, Nat.le_trans hwe he, fun hlt => ?_, ih W⟩
    rcases Nat.lt_or_ge w.pe e with hin | hge
    · exact hstop hin
    · exact hspaces w.pe hge hlt

end Words

/-- What `trimSpace` does: it takes spaces away at both ends, until a byte there is no space. -/
structure Trimmed (mem : Nat → UInt8) (isspace : UInt8 → Bool) (s t : Slice) : Prop where
  start : s.pb ≤ t.pb
  stop : t.pe ≤ s.pe
  front : Spaces mem isspace s.pb t.pb
  back : Spaces mem isspace t.pe s.pe
  first : t.pb < t.pe → isspace (mem t.pb) = false
  last : t.pb < t.pe → isspace (mem (t.pe - 1)) = false

theorem trimSpace_trimmed (mem : Nat → UInt8) (isspace : UInt8 → Bool) (s : Slice) :
    Trimmed mem isspace s (s.trimSpace mem isspace) := by
  have hb : scan isspace mem (s.pe - s.pb) s.pb ≤ s.pe :=
    Nat.le_trans scan_le (Nat.le_of_eq (Nat.add_sub_of_le s.le))
  have hn : s.pe - scan isspace mem (s.pe - s.pb) s.pb ≤ s.pe := Nat.sub_le _ _
  have hle := (s.trimSpace mem isspace).le
  constructor
  case start => exact le_scan
  case stop => exact scanBack_le
  case front => exact fun a ha hlt => of_lt_scan ha hlt
  case back => exact fun a ha hlt => of_scanBack_le hn ha hlt
  case first =>
    intro hlt
    have hin : scan isspace mem (s.pe - s.pb) s.pb < s.pe := Nat.lt_of_lt_of_le hlt scanBack_le
    exact scan_stop (by rwa [Nat.add_sub_of_le s.le])
  case last =>
    intro hlt
    exact scanBack_stop hn (by rwa [Nat.sub_sub_self hb])

namespace Trimmed

variable {t : Slice}

theorem words (T : Trimmed mem isspace s t) (W : Words mem isspace t.pe t.pb ws) :
    Words mem isspace s.pe s.pb ws :=
  (W.of_spaces_left T.start T.front).of_spaces_right T.stop T.back

/-- The trimmed slice starts with its first word. -/
theorem pb_eq (T : Trimmed mem isspace s t) (W : Words mem isspace t.pe t.pb (w :: ws)) : t.pb = w.pb := by
  obtain ⟨hb, hspaces, hne, _, he, _⟩ := W
  refine Nat.le_antisymm hb (Nat.not_lt.mp fun hlt => ?_)
  have hspace := hspaces t.pb (Nat.le_refl _) hlt
  rw [T.first (by omega)] at hspace
  cases hspace

/-- The trimmed slice ends with its last word. -/
theorem pe_eq (T : Trimmed mem isspace s t) (W : Words mem isspace t.pe t.pb ws) (hw : ws.getLast? = some w) :
    t.pe = w.pe := by
  have hmem : w ∈ ws := List.mem_of_getLast? hw
  obtain ⟨hb, hne, he, _, hstop⟩ := W.of_mem hmem
  refine Nat.le_antisymm (Nat.not_lt.mp fun hlt => ?_) he
  have hspace : isspace (mem (t.pe - 1)) = true := by
    refine W.skipped (by omega) (by omega) fun v hv hin => ?_
    -- a word behind the last one
    obtain ⟨ws', rfl⟩ := List.getLast?_eq_some_iff.mp hw
    rcases List.mem_append.mp hv with hv | hv
    · have hord := (List.pairwise_append.mp W.ordered).2.2 v hv w (List.mem_singleton_self w)
      omega
    · cases List.mem_singleton.mp hv
      omega
  rw [T.last (by omega)] at hspace
  cases hspace

end Trimmed

/-- The words of a slice: its maximal runs of bytes that are no space, in order, with spaces between. -/
structure WordsOf (mem : Nat → UInt8) (isspace : UInt8 → Bool) (s : Slice) (ws : List Slice) : Prop where
  mem_iff : ∀ w, w ∈ ws ↔ MaximalRun mem isspace s w
  ordered : ws.Pairwise fun p q => p.pe < q.pb
  skipped : ∀ a, s.pb ≤ a → a < s.pe → (∀ w ∈ ws, ¬(w.pb ≤ a ∧ a < w.pe)) → isspace (mem a) = true

theorem Words.wordsOf (W : Words mem isspace s.pe s.pb ws) : WordsOf mem isspace s ws where
  mem_iff _ :=
    ⟨W.maximalRun (Nat.le_refl _) fun h => absurd h (Nat.lt_irrefl _),
      fun M => W.mem_of_maximalRun (Nat.le_refl _) M M.start⟩
  ordered := W.ordered
  skipped _ := W.skipped

/-- **Word scanning yields exactly the words**: `eatWord`, called again and again, comes to an empty slice,
and has then returned the maximal runs of bytes that are no space. `trimSpace` changes nothing of
that: it leaves what lies from the start of the first word to the end of the last. -/
theorem eatWords_maximal_runs (mem : Nat → UInt8) (isspace : UInt8 → Bool) (s : Slice) :
    ∃ ws, WordsOf mem isspace s ws ∧
      ∀ n, s.size < n → eatWords mem isspace n s = some ws ∧
        eatWords mem isspace n (s.trimSpace mem isspace) = some ws ∧
        (∀ w ∈ ws.head?, (s.trimSpace mem isspace).pb = w.pb) ∧
        (∀ w ∈ ws.getLast?, (s.trimSpace mem isspace).pe = w.pe) := by
  have T := trimSpace_trimmed mem isspace s
  have hsize : (s.trimSpace mem isspace).size ≤ s.size := Nat.le_trans (Nat.sub_le_sub_right T.stop _)
    (Nat.sub_le_sub_left T.start _)
  generalize s.trimSpace mem isspace = t at T hsize
  obtain ⟨ws, -, W⟩ := eatWords_words mem isspace (Nat.lt_succ_self t.size)
  refine ⟨ws, (T.words W).wordsOf, fun n hn => ⟨?_, ?_, fun w hw => ?_, fun w hw => ?_⟩⟩
  · obtain ⟨ws', hrun, W'⟩ := eatWords_words mem isspace hn
    rw [hrun, W'.unique (T.words W)]
  · obtain ⟨ws', hrun, W'⟩ := eatWords_words mem isspace (Nat.lt_of_le_of_lt hsize hn)
    rw [hrun, W'.unique W]
  · obtain ⟨ws', rfl⟩ := List.head?_eq_some_iff.mp hw
    exact T.pb_eq W
  · exact T.pe_eq W hw

end NetLibrary.Slice
