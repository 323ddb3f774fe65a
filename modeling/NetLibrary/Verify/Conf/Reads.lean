import NetLibrary.Model.Conf
import NetLibrary.Theory.Records

/-!
# What `fgets` reads

The calls of `fgets` read a file in blocks of at most `MAXSIZE - 1` bytes, which a newline ends (`reads_eq`).
-/

namespace NetLibrary.Conf
open Records

variable {file cur rest t l : Bytes}

def isNewline (c : UInt8) : Bool := c = '\n'.toUInt8

theorem isNewline_eq_false (ht : '\n'.toUInt8 ∉ t) : ∀ c ∈ t, isNewline c = false := by
  intro c hc
  refine decide_eq_false ?_
  rintro rfl
  exact ht hc

theorem reads_eq : reads cur file = blocks isNewline (maxSize - 1) cur file := by
  induction file generalizing cur with
  | nil =>
    rw [reads, blocks]
    simp
  | cons c file ih =>
    rw [reads, blocks, ih, ih]
    simp [isNewline]

theorem mem_reads (h : l ∈ reads cur file) : ∀ x ∈ l, x ∈ cur ∨ x ∈ file := by
  intro x hx
  rw [reads_eq] at h
  have hflat : x ∈ (blocks isNewline (maxSize - 1) cur file).flatten := List.mem_flatten_of_mem h hx
  rw [flatten_blocks] at hflat
  exact List.mem_append.mp hflat

theorem reads_ne_nil (h : l ∈ reads cur file) : l ≠ [] := by
  rw [reads_eq] at h
  exact ne_nil_of_mem_blocks h

/-- A line that fits into the buffer. -/
theorem reads_line (ht : '\n'.toUInt8 ∉ t) (hlen : cur.length + t.length ≤ 1022) :
    reads cur (t ++ '\n'.toUInt8 :: rest) = (cur ++ t ++ ['\n'.toUInt8]) :: reads [] rest := by
  have hfits : cur.length + t.length < maxSize - 1 := Nat.lt_succ_of_le hlen
  rw [reads_eq, reads_eq]
  exact blocks_append (isNewline_eq_false ht) rfl hfits

theorem reads_last (ht : '\n'.toUInt8 ∉ t) (hlen : cur.length + t.length ≤ 1022) :
    reads cur t = if cur ++ t = [] then [] else [cur ++ t] := by
  have hfits : cur.length + t.length < maxSize - 1 := Nat.lt_succ_of_le hlen
  rw [reads_eq, blocks_last (isNewline_eq_false ht) hfits]
  simp only [List.isEmpty_iff]

/-- What `fgets` has read after some calls is what it reads of a file that ends there. -/
theorem reads_take {n : Nat} (h : cur = [] ∨ 0 < n) :
    ∃ p, reads cur p = (reads cur file).take n ∧ cur ++ p = ((reads cur file).take n).flatten := by
  simp only [reads_eq]
  exact blocks_take h

end NetLibrary.Conf
