import Mathlib.Data.List.Basic

/-!
# Records in a stream

A stream is cut behind every element that ends a record (`records`). A reader with a buffer of `n` elements
also cuts where its buffer is full (`blocks`). What it reads agrees with the records up to the first of them that
does not fit (`cut_blocks`).
-/

namespace Records

variable {α : Type*} {stop : α → Bool} {n : Nat} {cur xs t l : List α}

/-- The records of a stream. `cur` is what has been read of the record under way. -/
def records (stop : α → Bool) (cur : List α) : List α → List (List α)
  | [] => if cur.isEmpty then [] else [cur]
  | c :: xs => if stop c then (cur ++ [c]) :: records stop [] xs else records stop (cur ++ [c]) xs

/-- What is read with a buffer of `n` elements. -/
def blocks (stop : α → Bool) (n : Nat) (cur : List α) : List α → List (List α)
  | [] => if cur.isEmpty then [] else [cur]
  | c :: xs =>
    if stop c ∨ cur.length + 1 = n then (cur ++ [c]) :: blocks stop n [] xs else blocks stop n (cur ++ [c]) xs

/-- Blocks that agree with the records up to the first one that is longer than `n`. -/
inductive Cut (n : Nat) : List (List α) → List (List α) → Prop
  | nil : Cut n [] []
  | fits {l bs ls} : l.length ≤ n → Cut n bs ls → Cut n (l :: bs) (l :: ls)
  | long {b l bs ls} : b.length = n → n < l.length → Cut n (b :: bs) (l :: ls)

/-- What follows makes the record under way longer. -/
theorem exists_records {x : α} : ∃ l ls, records stop cur (x :: xs) = l :: ls ∧ cur.length < l.length := by
  induction xs generalizing cur x with
  | nil =>
    have hlast : records stop (cur ++ [x]) [] = [cur ++ [x]] := by rw [records, if_neg (by simp)]
    rw [records, hlast]
    split <;> exact ⟨cur ++ [x], _, rfl, by simp⟩
  | cons y xs ih =>
    rw [records]
    split
    · exact ⟨cur ++ [x], _, rfl, by simp⟩
    · obtain ⟨l, ls, hl, hlen⟩ : ∃ l ls, records stop (cur ++ [x]) (y :: xs) = l :: ls ∧ _ := ih
      rw [List.length_append] at hlen
      exact ⟨l, ls, hl, Nat.lt_of_add_right_lt hlen⟩

/-- A full buffer holds the whole record only at the end of the stream. -/
theorem cut_full (hne : cur ≠ []) (hcur : cur.length = n)
    (hnext : Cut n (blocks stop n [] xs) (records stop [] xs)) :
    Cut n (cur :: blocks stop n [] xs) (records stop cur xs) := by
  cases xs with
  | nil =>
    rw [records, if_neg (by simpa using hne)]
    exact .fits (Nat.le_of_eq hcur) hnext
  | cons x xs =>
    obtain ⟨l, ls, hl, hlong⟩ : ∃ l ls, records stop cur (x :: xs) = l :: ls ∧ _ := exists_records
    rw [hl]
    exact .long hcur (hcur ▸ hlong)

theorem cut_blocks (hcur : cur.length < n) : Cut n (blocks stop n cur xs) (records stop cur xs) := by
  induction xs generalizing cur with
  | nil =>
    rw [blocks, records]
    split
    · exact .nil
    · exact .fits (Nat.le_of_lt hcur) .nil
  | cons c xs ih =>
    have hlen : (cur ++ [c]).length = cur.length + 1 := List.length_append
    have hnext : Cut n (blocks stop n [] xs) (records stop [] xs) := ih (Nat.zero_lt_of_lt hcur)
    rw [blocks, records]
    cases stop c with
    | true => exact .fits (by omega) hnext
    | false =>
      rw [if_neg Bool.false_ne_true]
      split
      case isTrue hfull =>
        have hn : cur.length + 1 = n := hfull.resolve_left Bool.false_ne_true
        exact cut_full (List.append_ne_nil_of_right_ne_nil cur (List.cons_ne_nil c [])) (hlen.trans hn) hnext
      case isFalse hmore =>
        have hn : cur.length + 1 ≠ n := fun hn => hmore (.inr hn)
        exact ih (by omega)

theorem length_of_mem_blocks (hcur : cur.length < n) (hl : l ∈ blocks stop n cur xs) : l.length ≤ n := by
  induction xs generalizing cur with
  | nil =>
    rw [blocks] at hl
    split at hl
    · cases hl
    · cases List.mem_singleton.mp hl
      exact Nat.le_of_lt hcur
  | cons c xs ih =>
    have hlen : (cur ++ [c]).length = cur.length + 1 := List.length_append
    rw [blocks] at hl
    split at hl
    · rcases List.mem_cons.mp hl with rfl | hl
      · omega
      · have hnil : ([] : List α).length < n := Nat.zero_lt_of_lt hcur
        exact ih hnil hl
    · exact ih (by omega) hl

/-- Nothing is lost. -/
theorem flatten_blocks : (blocks stop n cur xs).flatten = cur ++ xs := by
  induction xs generalizing cur with
  | nil =>
    rw [blocks, List.append_nil]
    split
    case isTrue hcur => rw [List.isEmpty_iff.mp hcur, List.flatten_nil]
    case isFalse => exact List.flatten_singleton
  | cons c xs ih =>
    rw [blocks]
    split
    · rw [List.flatten_cons, ih, List.nil_append, List.append_assoc, List.singleton_append]
    · rw [ih, List.append_assoc, List.singleton_append]

theorem ne_nil_of_mem_blocks (hl : l ∈ blocks stop n cur xs) : l ≠ [] := by
  induction xs generalizing cur with
  | nil =>
    rw [blocks] at hl
    split at hl
    · cases hl
    case isFalse hcur =>
      cases List.mem_singleton.mp hl
      exact fun hnil => hcur (List.isEmpty_iff.mpr hnil)
  | cons c xs ih =>
    rw [blocks] at hl
    split at hl
    · rcases List.mem_cons.mp hl with rfl | hl
      · exact List.append_ne_nil_of_right_ne_nil cur (List.cons_ne_nil c [])
      · exact ih hl
    · exact ih hl

/-- What has been read after some blocks is what is read of a stream that ends there. -/
theorem blocks_take {m : Nat} (h : cur = [] ∨ 0 < m) : ∃ p, blocks stop n cur p = (blocks stop n cur xs).take m ∧
    cur ++ p = ((blocks stop n cur xs).take m).flatten := by
  induction xs generalizing m cur with
  | nil =>
    refine ⟨[], ?_⟩
    rw [blocks, List.append_nil]
    split
    case isTrue hcur =>
      rw [List.take_nil, List.isEmpty_iff.mp hcur]
      exact ⟨rfl, rfl⟩
    case isFalse hcur =>
      have hm : 0 < m := h.resolve_left fun hnil => hcur (List.isEmpty_iff.mpr hnil)
      rw [List.take_of_length_le hm, List.flatten_singleton]
      exact ⟨rfl, rfl⟩
  | cons c xs ih =>
    cases m with
    | zero =>
      obtain rfl := h.resolve_right (Nat.lt_irrefl 0)
      exact ⟨[], rfl, rfl⟩
    | succ m =>
      simp only [blocks]
      split
      case isTrue hend =>
        obtain ⟨p, hp, hflat⟩ := ih (m := m) (.inl rfl)
        refine ⟨c :: p, ?_, ?_⟩
        · rw [blocks, if_pos hend, hp, List.take_succ_cons]
        · rw [List.take_succ_cons, List.flatten_cons, ← hflat, List.append_assoc]
          rfl
      case isFalse hmore =>
        obtain ⟨p, hp, hflat⟩ := ih (m := m + 1) (.inr (Nat.succ_pos m))
        refine ⟨c :: p, ?_, ?_⟩
        · rw [blocks, if_neg hmore, hp]
        · rw [← hflat, List.append_assoc]
          rfl

/-! What is read of a single record. -/

theorem blocks_cons {c : α} (hc : stop c = false) (hlen : cur.length + 1 ≠ n) :
    blocks stop n cur (c :: xs) = blocks stop n (cur ++ [c]) xs := by
  rw [blocks, if_neg]
  rintro (hstop | hfull)
  · rw [hc] at hstop
    cases hstop
  · exact hlen hfull

theorem blocks_append {c : α} (ht : ∀ c ∈ t, stop c = false) (hc : stop c = true) (hlen : cur.length + t.length < n) :
    blocks stop n cur (t ++ c :: xs) = (cur ++ t ++ [c]) :: blocks stop n [] xs := by
  induction t generalizing cur with
  | nil => rw [List.nil_append, blocks, if_pos (.inl hc), List.append_nil]
  | cons d t ih =>
    obtain ⟨hd, ht⟩ := List.forall_mem_cons.mp ht
    rw [List.length_cons] at hlen
    rw [List.cons_append, blocks_cons hd (by omega), ih ht (by simp; omega), List.append_assoc cur,
      List.singleton_append]

theorem blocks_last (ht : ∀ c ∈ t, stop c = false) (hlen : cur.length + t.length < n) :
    blocks stop n cur t = if (cur ++ t).isEmpty then [] else [cur ++ t] := by
  induction t generalizing cur with
  | nil => rw [blocks, List.append_nil]
  | cons d t ih =>
    obtain ⟨hd, ht⟩ := List.forall_mem_cons.mp ht
    rw [List.length_cons] at hlen
    rw [blocks_cons hd (by omega), ih ht (by simp; omega), List.append_assoc cur, List.singleton_append]

/-- Elements that fill the buffer. -/
theorem blocks_full (ht : ∀ c ∈ t, stop c = false) (hne : t ≠ []) (hlen : cur.length + t.length = n) :
    blocks stop n cur (t ++ xs) = (cur ++ t) :: blocks stop n [] xs := by
  induction t generalizing cur with
  | nil => exact absurd rfl hne
  | cons c t ih =>
    obtain ⟨hc, ht⟩ := List.forall_mem_cons.mp ht
    rw [List.length_cons] at hlen
    cases t with
    | nil => rw [List.singleton_append, blocks, if_pos (.inr hlen)]
    | cons d t =>
      rw [List.length_cons] at hlen
      rw [List.cons_append, blocks_cons hc (by omega), ih ht (List.cons_ne_nil d t) (by simp; omega),
        List.append_assoc, List.singleton_append]

/-- A record with the element that ends it. -/
theorem records_append {c : α} (ht : ∀ c ∈ t, stop c = false) (hc : stop c = true) :
    records stop cur (t ++ c :: xs) = (cur ++ t ++ [c]) :: records stop [] xs := by
  induction t generalizing cur with
  | nil => rw [List.nil_append, records, if_pos hc, List.append_nil]
  | cons d t ih =>
    obtain ⟨hd, ht⟩ := List.forall_mem_cons.mp ht
    rw [List.cons_append, records, hd, if_neg Bool.false_ne_true, ih ht, List.append_assoc cur,
      List.singleton_append]

end Records
