import NetLibrary.Model.Logger

/-!
# The date in the name of a rotated file

The fields after the year have two digits each, so the text can be cut from its end, and each field is read
off its digits. So the text says which minute of local time it was, and no more.
-/

namespace NetLibrary.Logger

variable {L : Logger} {m n t u : Int}

theorem toDigits_inj {m n : Nat} (h : Nat.toDigits 10 m = Nat.toDigits 10 n) : m = n := by
  have hdigits := congrArg (Nat.ofDigitChars 10 · 0) h
  rwa [Nat.ofDigitChars_ten_toDigits, Nat.ofDigitChars_ten_toDigits] at hdigits

theorem minus_not_mem_toDigits {n : Nat} : '-' ∉ Nat.toDigits 10 n := by
  intro h
  have hdigit := Nat.isDigit_of_mem_toDigits (by decide) (by decide) h
  cases hdigit

theorem formatD_inj (h : formatD m = formatD n) : m = n := by
  have hsign : ∀ {a b : Nat}, '-' :: Nat.toDigits 10 a ≠ Nat.toDigits 10 b := fun h =>
    minus_not_mem_toDigits (h ▸ List.mem_cons_self)
  unfold formatD at h
  split at h <;> split at h
  · have habs := toDigits_inj (List.cons.inj h).2
    omega
  · exact absurd h hsign
  · exact absurd h.symm hsign
  · have habs := toDigits_inj h
    omega

theorem length_format02d (h : n.natAbs < 100) : (format02d n).length = 2 := by
  have hle : (Nat.toDigits 10 n.natAbs).length ≤ 2 :=
    (Nat.length_toDigits_le_iff (by decide) (by decide)).mpr h
  have hpos := Nat.length_toDigits_pos (b := 10) (n := n.natAbs)
  unfold format02d
  split
  · rw [List.length_cons]
    omega
  · omega

theorem format02d_inj (hm : 0 ≤ m) (hn : 0 ≤ n) (h : format02d m = format02d n) : m = n := by
  have hvalue : ∀ k : Int, Nat.ofDigitChars 10 (format02d k) 0 = k.natAbs := by
    intro k
    unfold format02d
    split
    · rw [Nat.ofDigitChars_cons]
      exact Nat.ofDigitChars_ten_toDigits
    · exact Nat.ofDigitChars_ten_toDigits
  have habs := congrArg (Nat.ofDigitChars 10 · 0) h
  rw [hvalue, hvalue] at habs
  omega

/-- Two texts that end in a field of two digits. -/
theorem append_format02d_inj {a b : Path} (hm : 0 ≤ m ∧ m < 100) (hn : 0 ≤ n ∧ n < 100)
    (h : a ++ format02d m = b ++ format02d n) : a = b ∧ m = n := by
  have hlen : (format02d m).length = (format02d n).length := by
    rw [length_format02d (by omega), length_format02d (by omega)]
  obtain ⟨hab, hfield⟩ := List.append_inj' h hlen
  exact ⟨hab, format02d_inj hm.1 hn.1 hfield⟩

/-- The date of a rotation is the minute that it happens in. -/
theorem date_eq_iff : L.date t = L.date u ↔ (t - L.timezone) / 60 = (u - L.timezone) / 60 := by
  rw [← Calendar.dateTime_eq_iff]
  refine ⟨fun h => ?_, fun h => by rw [date, date, localtime, localtime, h]⟩
  obtain ⟨hmo, hmo', hd, hd'⟩ := Calendar.civil_lt ((t - L.timezone) / 86400)
  obtain ⟨hh, hh', hmi, hmi'⟩ := Calendar.dateTime_lt (t - L.timezone)
  obtain ⟨hmo₂, hmo₂', hd₂, hd₂'⟩ := Calendar.civil_lt ((u - L.timezone) / 86400)
  obtain ⟨hh₂, hh₂', hmi₂, hmi₂'⟩ := Calendar.dateTime_lt (u - L.timezone)
  obtain ⟨h, hminute⟩ := append_format02d_inj ⟨hmi, hmi'⟩ ⟨hmi₂, hmi₂'⟩ h
  obtain ⟨h, hhour⟩ := append_format02d_inj ⟨hh, hh'⟩ ⟨hh₂, hh₂'⟩ h
  obtain ⟨h, hday⟩ := append_format02d_inj ⟨hd, hd'⟩ ⟨hd₂, hd₂'⟩ h
  obtain ⟨h, hmonth⟩ := append_format02d_inj ⟨hmo, hmo'⟩ ⟨hmo₂, hmo₂'⟩ h
  have hyear := formatD_inj (List.cons.inj h).2
  exact Calendar.DateTime.ext hyear hmonth hday hhour hminute

end NetLibrary.Logger
