import NetLibrary.Model.Slice

/-!
# Splitting a slice

`split` cuts a slice at every separator and drops the field after the last one when it is empty. Its
pieces are the fields of `List.splitOn` but for that one, so that joining them gives the slice back up to
one separator at its end.
-/

namespace NetLibrary.Slice

open Span

variable {mem : Nat → UInt8} {ch : UInt8} {s : Slice} {n p1 p2 : Nat}

/-- The field after the last separator, where `split` leaves it out: it is empty. -/
def dropped (ch : UInt8) (bs : Bytes) : List Bytes :=
  match bs.getLast? with
  | none => [[]]
  | some c => if c = ch then [[]] else []

/-- What lies between two separators is dropped or not whatever lies before it. -/
theorem dropped_sep {bs cs : Bytes} : dropped ch (bs ++ ch :: cs) = dropped ch cs := by
  cases cs with
  | nil => simp [dropped]
  | cons c cs =>
    rw [dropped, dropped, List.getLast?_append, List.getLast?_cons_cons, List.getLast?_cons]
    rfl

/-- The loop with the field `[p1, p2)` pending. -/
theorem splitLoop_splitOn (h : p1 ≤ p2) (hpending : ch ∉ read mem p1 p2) :
    (read mem p1 (p2 + n)).splitOn ch =
      (splitLoop mem ch n p1 p2 h).map (toString mem) ++ dropped ch (read mem p1 (p2 + n)) := by
  induction n generalizing p1 p2 with
  | zero =>
    rw [Nat.add_zero, List.splitOn_eq_singleton hpending, splitLoop]
    by_cases hp : p1 = p2
    · simp [hp, dropped]
    · have hlt : p1 < p2 := Nat.lt_of_le_of_ne h hp
      have hlast : dropped ch (read mem p1 p2) = [] := by
        have hne : read mem p1 p2 ≠ [] := by
          rw [← List.length_pos_iff, length_read]
          omega
        rw [dropped, List.getLast?_eq_getLast_of_ne_nil hne]
        refine if_neg fun hch => hpending ?_
        rw [← hch]
        exact List.getLast_mem hne
      rw [if_pos hp, hlast]
      rfl
  | succ n ih =>
    have hend : p2 + (n + 1) = p2 + 1 + n := by omega
    rw [hend, splitLoop]
    split
    case isTrue hch =>
      have hsplit : read mem p1 (p2 + 1 + n) = read mem p1 p2 ++ ch :: read mem (p2 + 1) (p2 + 1 + n) := by
        rw [← read_append_read h (show p2 ≤ p2 + 1 + n by omega), read_cons (show p2 < p2 + 1 + n by omega), hch]
      rw [hsplit, List.splitOn_append_cons_self_of_not_mem hpending, dropped_sep, List.map_cons,
        List.cons_append, ih (Nat.le_refl _) (by simp)]
      rfl
    case isFalse hch =>
      exact ih (Nat.le_succ_of_le h) (not_mem_read_succ h hpending hch)

theorem split_splitOn (mem : Nat → UInt8) (ch : UInt8) (s : Slice) : (s.toString mem).splitOn ch =
    (s.split mem ch).map (toString mem) ++ dropped ch (s.toString mem) := by
  have hend : s.pb + s.size = s.pe := Nat.add_sub_of_le s.le
  have hnone : ch ∉ read mem s.pb s.pb := by simp
  rw [split, toString, ← hend]
  exact splitLoop_splitOn (Nat.le_refl s.pb) hnone

/-- Every piece starts after the pieces before it and their separators, and is free of separators. -/
theorem splitLoop_pieces (h : p1 ≤ p2) (hpending : ch ∉ read mem p1 p2) :
    (splitLoop mem ch n p1 p2 h).Pairwise (fun p q => p.pe < q.pb) ∧
      ∀ p ∈ splitLoop mem ch n p1 p2 h, p1 ≤ p.pb ∧ p.pe ≤ p2 + n ∧ ch ∉ p.toString mem := by
  induction n generalizing p1 p2 with
  | zero =>
    rw [splitLoop]
    split
    · refine ⟨List.pairwise_singleton _ _, fun p hp => ?_⟩
      cases List.mem_singleton.mp hp
      exact ⟨Nat.le_refl _, Nat.le_refl _, hpending⟩
    · exact ⟨List.Pairwise.nil, fun p hp => absurd hp List.not_mem_nil⟩
  | succ n ih =>
    rw [splitLoop]
    split
    case isTrue hch =>
      obtain ⟨hpw, hall⟩ := ih (Nat.le_refl (p2 + 1)) (by simp)
      refine ⟨List.pairwise_cons.mpr ⟨fun q hq => (hall q hq).1, hpw⟩, fun p hp => ?_⟩
      rcases List.mem_cons.mp hp with rfl | hp
      · exact ⟨Nat.le_refl _, Nat.le_add_right _ _, hpending⟩
      · obtain ⟨hpb, hpe, hno⟩ := hall p hp
        exact ⟨by omega, by omega, hno⟩
    case isFalse hch =>
      obtain ⟨hpw, hall⟩ := ih (Nat.le_succ_of_le h) (not_mem_read_succ h hpending hch)
      refine ⟨hpw, fun p hp => ?_⟩
      obtain ⟨hpb, hpe, hno⟩ := hall p hp
      exact ⟨hpb, by omega, hno⟩

theorem length_splitOn {bs : Bytes} : (bs.splitOn ch).length = bs.count ch + 1 := by
  induction bs with
  | nil => rfl
  | cons c bs ih =>
    rw [List.splitOn_cons_eq_if_modifyHead, List.count_cons]
    split
    case isTrue => rw [List.length_cons, ih]
    case isFalse => rw [List.length_modifyHead, ih, Nat.add_zero]

/-- What `split` has to return: the fields of the slice as its own parts, up to one separator at its end. -/
structure IsSplit (mem : Nat → UInt8) (ch : UInt8) (s : Slice) (pieces : List Slice) : Prop where
  no_sep : ∀ p ∈ pieces, ch ∉ p.toString mem
  inside : ∀ p ∈ pieces, s.pb ≤ p.pb ∧ p.pe ≤ s.pe
  ordered : pieces.Pairwise fun p q => p.pe < q.pb
  join : [ch].intercalate (pieces.map (toString mem)) =
    if (s.toString mem).getLast? = some ch then (s.toString mem).dropLast else s.toString mem
  length : pieces.length = (s.toString mem).count ch +
    if s.toString mem ≠ [] ∧ (s.toString mem).getLast? ≠ some ch then 1 else 0

theorem intercalate_concat {sep l : Bytes} {ls : List Bytes} (hls : ls ≠ []) :
    sep.intercalate (ls ++ [l]) = sep.intercalate ls ++ sep ++ l := by
  induction ls with
  | nil => exact absurd rfl hls
  | cons l' ls ih =>
    cases ls with
    | nil => simp
    | cons l'' ls =>
      have hrec := ih (List.cons_ne_nil l'' ls)
      rw [List.cons_append] at hrec
      rw [List.cons_append, List.cons_append, List.intercalate_cons_cons, hrec, List.intercalate_cons_cons]
      simp only [List.append_assoc]

/-- The three ends of a text: a separator, none at all, another byte. -/
theorem dropped_cases (ch : UInt8) (bs : Bytes) :
    (bs.getLast? = some ch ∧ dropped ch bs = [[]]) ∨ (bs = [] ∧ dropped ch bs = [[]]) ∨
      (bs ≠ [] ∧ bs.getLast? ≠ some ch ∧ dropped ch bs = []) := by
  cases hlast : bs.getLast? with
  | none => exact .inr (.inl ⟨List.getLast?_eq_none_iff.mp hlast, by simp [dropped, hlast]⟩)
  | some c =>
    have hne : bs ≠ [] := by
      rintro rfl
      cases hlast
    by_cases hc : c = ch
    · exact .inl ⟨by rw [hc], by simp [dropped, hlast, hc]⟩
    · exact .inr (.inr ⟨hne, by simpa using hc, by simp [dropped, hlast, hc]⟩)

theorem intercalate_split : [ch].intercalate ((s.split mem ch).map (toString mem)) =
    if (s.toString mem).getLast? = some ch then (s.toString mem).dropLast else s.toString mem := by
  have hjoin : [ch].intercalate ((s.toString mem).splitOn ch) = s.toString mem := List.intercalate_splitOn ch
  rw [split_splitOn] at hjoin
  generalize (s.split mem ch).map (toString mem) = ps at hjoin
  generalize s.toString mem = bs at hjoin
  rcases dropped_cases ch bs with ⟨hlast, hdrop⟩ | ⟨hnil, hdrop⟩ | ⟨-, hlast, hdrop⟩
  · rw [hdrop] at hjoin
    have hps : ps ≠ [] := by
      rintro rfl
      rw [← hjoin] at hlast
      cases hlast
    rw [intercalate_concat hps, List.append_nil] at hjoin
    rw [if_pos hlast, ← hjoin, List.dropLast_concat]
  · rw [hdrop] at hjoin
    have hps : ps = [] := by
      by_contra hps
      rw [intercalate_concat hps, List.append_nil, hnil] at hjoin
      exact List.append_ne_nil_of_right_ne_nil _ (List.cons_ne_nil ch []) hjoin
    rw [hps, hnil]
    rfl
  · rw [hdrop, List.append_nil] at hjoin
    rw [if_neg hlast, hjoin]

theorem length_split : (s.split mem ch).length = (s.toString mem).count ch +
    if s.toString mem ≠ [] ∧ (s.toString mem).getLast? ≠ some ch then 1 else 0 := by
  have hlen := congrArg List.length (split_splitOn mem ch s)
  rw [length_splitOn, List.length_append, List.length_map] at hlen
  generalize s.toString mem = bs at hlen
  rcases dropped_cases ch bs with ⟨hlast, hdrop⟩ | ⟨hnil, hdrop⟩ | ⟨hne, hlast, hdrop⟩
  · rw [hdrop, List.length_singleton] at hlen
    rw [if_neg fun h => h.2 hlast]
    omega
  · rw [hdrop, List.length_singleton] at hlen
    rw [if_neg fun h => h.1 hnil]
    omega
  · rw [hdrop, List.length_nil] at hlen
    rw [if_pos ⟨hne, hlast⟩]
    omega

/-- **`split` is invertible up to one separator at the end**: its pieces are free of separators, lie in the
slice one after the other, and joined by separators give the slice, but for a separator at its end. -/
theorem split_isSplit (mem : Nat → UInt8) (ch : UInt8) (s : Slice) : IsSplit mem ch s (s.split mem ch) := by
  have hend : s.pb + s.size = s.pe := Nat.add_sub_of_le s.le
  have hnone : ch ∉ read mem s.pb s.pb := by simp
  obtain ⟨hordered, hpieces⟩ := splitLoop_pieces (n := s.size) (Nat.le_refl s.pb) hnone
  refine ⟨fun p hp => (hpieces p hp).2.2, fun p hp => ?_, hordered, intercalate_split, length_split⟩
  obtain ⟨hpb, hpe, -⟩ := hpieces p hp
  exact ⟨hpb, hend ▸ hpe⟩

end NetLibrary.Slice
