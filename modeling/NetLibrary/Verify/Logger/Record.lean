import NetLibrary.Model.LogRecord
import NetLibrary.Theory.Block
import NetLibrary.Verify.Util
import Mathlib.Data.List.DropRight

/-!
# The record that `logv` writes

As long as the header fits into the buffer, the room that is passed to `vsnprintf` is what is left of it, and the
clamp before the backward scan keeps the newline and the NUL inside of the buffer. A header that is longer than
the buffer takes `pb` past the end, `pe - pb` is negative, and as a `size_t` it is a size of almost `2 ^ 64`: the
clamp comes only after the second write.
-/

namespace NetLibrary.LogRecord
open Decimal

variable {f f' : Frame} {buf : List Cell} {b : UInt8} {n : Nat} {s t x y h message : Bytes}
  {m_level : LogLevel} {now : Now} {c : Call}

abbrev nl : UInt8 := '\n'.toUInt8

/-- A text without the newlines at its end. -/
def strip (t : Bytes) : Bytes := t.rdropWhile (· = nl)

/-- The record to write: the header and the message, as far as they fit with a newline and a NUL behind them. -/
def record (header message : Bytes) : Bytes :=
  header.take (bufSize - 2) ++ strip (message.take (bufSize - 2 - header.length)) ++ [nl]

theorem strip_concat : strip (t ++ [b]) = if b = nl then strip t else t ++ [b] := by
  rw [strip, strip, List.rdropWhile_concat]
  simp

theorem strip_append (hx : ∀ b ∈ x.getLast?, b ≠ nl) : strip (x ++ y) = x ++ strip y := by
  induction y using List.reverseRecOn with
  | nil =>
    rw [strip, strip, List.rdropWhile_nil, List.append_nil, List.rdropWhile_eq_self_iff]
    intro hne
    simpa using hx _ (List.getLast?_eq_some_getLast hne)
  | append_singleton y b ih =>
    rw [← List.append_assoc, strip_concat, strip_concat]
    split
    case isTrue => exact ih
    case isFalse => rw [List.append_assoc]

/-- The backward scan from the end of a text that is not all newlines. -/
theorem back_eq (hbuf : t.map some <+: buf) (hne : strip t ≠ []) :
    back buf t.length = some ((strip t).length - 1) := by
  induction t using List.reverseRecOn with
  | nil => exact absurd rfl hne
  | append_singleton t b ih =>
    obtain ⟨r, rfl⟩ := hbuf
    have hb : ((t ++ [b]).map some ++ r)[t.length]?.join = some b := by simp
    rw [List.length_append, List.length_singleton, back, hb, strip_concat, Option.bind_eq_bind, Option.bind_some]
    rw [strip_concat] at hne
    split
    case isTrue hnl =>
      rw [if_pos hnl] at hne
      exact ih ⟨some b :: r, by simp⟩ hne
    case isFalse => simp

/-! The two writes. -/

/-- The frame after this text was printed, as far as there was room. -/
structure Printed (f : Frame) (t : Bytes) : Prop where
  pb : f.pb = t.length
  text : (t.take (bufSize - 1)).map some <+: f.buf

theorem printed_start : Printed { buf, pb := 0 } [] where
  pb := rfl
  text := List.nil_prefix

theorem store_text (ht : t.map some <+: buf) (hs : t.length + s.length ≤ bufSize) :
    ∃ buf', store buf t.length s = some buf' ∧ (t ++ s).map some <+: buf' := by
  rw [store]
  split
  case isTrue hnil => exact ⟨buf, rfl, by rwa [hnil, List.append_nil]⟩
  case isFalse =>
    obtain ⟨r, rfl⟩ := ht
    refine ⟨_, if_pos ⟨Int.natCast_nonneg _, by exact_mod_cast hs⟩, r.drop s.length, ?_⟩
    have hlen : ((t.length : Int)).toNat = (t.map (some : UInt8 → Cell)).length := by simp
    rw [hlen, Block.blit_append, List.length_map, List.map_append]

theorem room_eq (hpb : f.pb = t.length) (hlen : t.length ≤ bufSize) :
    (((bufSize : Int) - f.pb) % 0x10000000000000000).toNat = bufSize - t.length := by
  rw [hpb]
  simp only [bufSize] at hlen ⊢
  omega

theorem print_eq (hpb : f.pb = t.length) (hlen : t.length ≤ bufSize)
    (hstore : store f.buf f.pb
      (if bufSize - t.length = 0 then [] else s.take (bufSize - t.length - 1) ++ [0]) = some buf) :
    print f s = some ⟨buf, f.pb + s.length, f.passed ++ [(bufSize - t.length, (bufSize : Int) - f.pb)]⟩ := by
  rw [print, room_eq hpb hlen, hstore]
  rfl

/-- What a write that starts inside of the buffer leaves there. -/
theorem Printed.store (hf : Printed f t) :
    ∃ buf, store f.buf f.pb
      (if bufSize - t.length = 0 then [] else s.take (bufSize - t.length - 1) ++ [0]) = some buf ∧
      ((t ++ s).take (bufSize - 1)).map some <+: buf := by
  rcases Nat.lt_or_ge t.length bufSize with hlt | hge
  · have ht := hf.text
    rw [List.take_of_length_le (by omega)] at ht
    let out := s.take (bufSize - t.length - 1) ++ [0]
    have hout : t.length + out.length ≤ bufSize := by simp [out]; omega
    obtain ⟨buf, hstore, htext⟩ := store_text ht hout
    refine ⟨buf, by rw [if_neg (by omega), hf.pb, hstore], .trans ?_ htext⟩
    rw [List.take_append, List.take_of_length_le (by omega : t.length ≤ bufSize - 1), Nat.sub_right_comm]
    simp [out, List.prefix_append]
  · have hsize : bufSize - t.length = 0 := Nat.sub_eq_zero_of_le hge
    refine ⟨f.buf, by rw [if_pos hsize]; rfl, ?_⟩
    rw [List.take_append_of_le_length (Nat.le_trans (Nat.sub_le _ _) hge)]
    exact hf.text

/-- A write that starts inside of the buffer is given the room that is left, and stays inside. -/
theorem Printed.print (hf : Printed f t) (hlen : t.length ≤ bufSize) : ∃ f', print f s = some f' ∧
    Printed f' (t ++ s) ∧ f'.passed = f.passed ++ [(bufSize - t.length, (bufSize : Int) - f.pb)] := by
  obtain ⟨buf, hstore, htext⟩ := hf.store (s := s)
  exact ⟨_, print_eq hf.pb hlen hstore, ⟨by simp [hf.pb], htext⟩, rfl⟩

theorem strip_text (hlast : ∀ b ∈ (h.take n).getLast?, b ≠ nl) :
    strip ((h ++ message).take n) = h.take n ++ strip (message.take (n - h.length)) := by
  rw [List.take_append, strip_append hlast]

/-- The end of a record: the scan stops at the last byte that is kept, and the newline and the NUL follow it. -/
theorem finish_eq (htext : t.map some <+: buf) (hlen : t.length ≤ bufSize - 2) (hne : strip t ≠ []) :
    ∃ pb buf₁ buf₂, back buf t.length = some pb ∧ store buf (pb + 1) [nl] = some buf₁ ∧
      store buf₁ (pb + 2) [0] = some buf₂ ∧ buf₂.take (pb + 2) = (strip t ++ [nl]).map some := by
  have hstrip : strip t <+: t := List.rdropWhile_prefix _ _
  have hle : (strip t).length ≤ bufSize - 2 := Nat.le_trans hstrip.length_le hlen
  have hpos : (strip t).length - 1 + 1 = (strip t).length :=
    Nat.sub_add_cancel (List.length_pos_iff.mpr hne)
  have hbuf : (strip t).map some <+: buf := .trans (hstrip.map some) htext
  have hnl : (((strip t).length - 1 : Nat) : Int) + 1 = (strip t).length := by omega
  have hnul : (((strip t).length - 1 : Nat) : Int) + 2 = (strip t ++ [nl]).length := by simp; omega
  have htake : (strip t).length - 1 + 2 = ((strip t ++ [nl]).map some).length := by simp; omega
  have hroom : (strip t).length + 1 ≤ bufSize - 1 := by simp only [bufSize] at hle ⊢; omega
  obtain ⟨buf₁, hstore₁, hbuf₁⟩ := store_text hbuf (s := [nl]) (Nat.le_trans hroom (Nat.sub_le _ _))
  obtain ⟨buf₂, hstore₂, hbuf₂⟩ := store_text hbuf₁ (s := [0]) (by simp only [bufSize] at hroom ⊢; simp; omega)
  refine ⟨(strip t).length - 1, buf₁, buf₂, back_eq htext hne, hnl ▸ hstore₁, hnul ▸ hstore₂, ?_⟩
  rw [htake, ← List.prefix_iff_eq_take.mp (.trans ((List.prefix_append _ _).map some) hbuf₂)]

/-- A header that fits, and does not end in a newline where it is cut off. -/
theorem emit_eq (hlen : h.length ≤ bufSize) (hlast : ∀ b ∈ (h.take (bufSize - 2)).getLast?, b ≠ nl)
    (hne : h ≠ []) :
    ∃ out, emit h message = some out ∧ (∀ p ∈ out.passed, (p.1 : Int) ≤ p.2) ∧
      out.bytes = (record h message).map some := by
  rw [emit]
  generalize List.replicate bufSize none = buf
  have hstart : Printed { buf, pb := 0 } [] := printed_start
  obtain ⟨f₁, hf₁, hp₁, hpassed₁⟩ := hstart.print (s := h) (Nat.zero_le bufSize)
  obtain ⟨f₂, hf₂, hp₂, hpassed₂⟩ := hp₁.print (s := message) hlen
  have hpb : (min f₂.pb (bufSize - 2)).toNat = ((h ++ message).take (bufSize - 2)).length := by
    rw [hp₂.pb, List.nil_append, List.length_take]
    simp only [bufSize]
    omega
  have htext : ((h ++ message).take (bufSize - 2)).map some <+: f₂.buf :=
    .trans ((List.take_prefix_take_left (by omega)).map some) hp₂.text
  have hstrip : strip ((h ++ message).take (bufSize - 2)) ≠ [] := by
    rw [strip_text hlast]
    simp [bufSize, hne]
  obtain ⟨pb, buf₁, buf₂, hback, hnl, hnul, htake⟩ := finish_eq htext (List.length_take_le _ _) hstrip
  rw [strip_text hlast] at htake
  refine ⟨⟨f₂.passed, (record h message).map some⟩, ?_, ?_, rfl⟩
  · rw [hf₁, Option.bind_eq_bind, Option.bind_some, hf₂, Option.bind_eq_bind, Option.bind_some]
    dsimp only
    rw [hpb, hback, Option.bind_some, hnl, Option.bind_eq_bind, Option.bind_some, hnul, Option.bind_some, htake,
      record]
    rfl
  · intro p hp
    simp only [hpassed₂, hpassed₁, hp₁.pb, List.nil_append, List.cons_append, List.mem_cons, List.not_mem_nil,
      or_false] at hp
    rcases hp with rfl | rfl
    · exact Int.le_refl _
    · dsimp only
      omega

/-- Past the end of the buffer a write is out of bounds, or is given a size of zero, which is still too much. -/
theorem print_past (hpb : bufSize < f.pb) (hf : print f s = some f') :
    ∃ p ∈ f'.passed, ¬(p.1 : Int) ≤ p.2 := by
  rw [print, Option.bind_eq_bind, Option.bind_eq_some_iff] at hf
  obtain ⟨buf, -, hf⟩ := hf
  cases hf
  refine ⟨_, List.mem_append_right _ List.mem_cons_self, ?_⟩
  dsimp only
  omega

theorem passed_of_emit {out : Output} (hemit : emit h message = some out) (hlen : bufSize < h.length) :
    ∃ p ∈ out.passed, ¬(p.1 : Int) ≤ p.2 := by
  rw [emit] at hemit
  generalize List.replicate bufSize none = buf at hemit
  have hstart : Printed { buf, pb := 0 } [] := printed_start
  obtain ⟨f₁, hf₁, hp₁, -⟩ := hstart.print (s := h) (Nat.zero_le bufSize)
  have hpb : (bufSize : Int) < f₁.pb := by
    rw [hp₁.pb]
    exact_mod_cast hlen
  simp only [hf₁, Option.bind_eq_bind, Option.bind_some, Option.bind_eq_some_iff] at hemit
  obtain ⟨f₂, hf₂, pb, -, buf₁, -, buf₂, -, hout⟩ := hemit
  cases hout
  exact print_past hpb hf₂

/-! The header. -/

/-- The bytes of the header that are not of the file's name. -/
def overhead (now : Now) (c : Call) : Nat := (header now { c with name := [] }).length

theorem length_header : (header now c).length = c.name.length + overhead now c := by
  have happend (x name y z w : Bytes) :
      (x ++ name ++ y ++ z ++ w).length = name.length + (x ++ [] ++ y ++ z ++ w).length := by
    simp only [List.length_append, List.length_nil]
    omega
  exact happend ..

/-- Where at most two bytes are cut off from the header, it does not end in a newline. -/
theorem header_take (hk : (header now c).length ≤ n + 2) :
    header now c ≠ [] ∧ ∀ b ∈ ((header now c).take n).getLast?, b ≠ nl := by
  obtain ⟨x, hx⟩ : ∃ x, header now c = x ++ (Util.formatD c.line ++ [' '.toUInt8, ' '.toUInt8]) :=
    ⟨_, List.append_assoc ..⟩
  have hne : Util.formatD c.line ≠ [] := Util.formatD_ne_nil
  have hnl : nl ∉ Util.formatD c.line ++ [' '.toUInt8, ' '.toUInt8] := by
    have hd : nl ∉ Util.formatD c.line := Util.not_mem_formatD rfl (by decide)
    rw [List.mem_append, not_or]
    exact ⟨hd, by decide⟩
  rw [hx] at hk ⊢
  generalize Util.formatD c.line = d at hk hne hnl ⊢
  refine ⟨by simp, ?_⟩
  have hlen : x.length < n := by
    have hpos := List.length_pos_iff.mpr hne
    simp at hk
    omega
  rintro b hb rfl
  rw [List.take_append, List.take_of_length_le (Nat.le_of_lt hlen), List.getLast?_append] at hb
  cases hlast : ((d ++ [' '.toUInt8, ' '.toUInt8]).take (n - x.length)).getLast? with
  | none =>
    rw [List.getLast?_eq_none_iff, List.take_eq_nil_iff] at hlast
    rcases hlast with hzero | hnil
    · omega
    · simp at hnil
  | some b =>
    rw [hlast, Option.some_or, Option.mem_some_iff] at hb
    have hmem := List.mem_of_mem_take (List.mem_of_getLast? hlast)
    exact hnl (hb ▸ hmem)

/-- What `logv` is to do with a call at an enabled level. -/
def WellFormed (m_level : LogLevel) (now : Now) (c : Call) : Prop :=
  ∃ out, logv m_level now c = some (some out) ∧ (∀ p ∈ out.passed, (p.1 : Int) ≤ p.2) ∧
    out.bytes = (record (header now c) c.message).map some

theorem fits_of_wellFormed (hlevel : c.level.toNat ≤ m_level.toNat) (hwf : WellFormed m_level now c) :
    (header now c).length ≤ bufSize := by
  obtain ⟨out, hout, hpassed, -⟩ := hwf
  rw [logv, if_neg (Nat.not_lt.mpr hlevel), Option.map_eq_some_iff] at hout
  obtain ⟨out, hemit, hout⟩ := hout
  cases hout
  by_contra hlen
  obtain ⟨p, hp, hgt⟩ := passed_of_emit hemit (Nat.not_le.mp hlen)
  exact hgt (hpassed p hp)

/-- **A record is well formed exactly if the file's name leaves room for the rest of the header.** -/
theorem logv_wellFormed_iff (m_level : LogLevel) (now : Now) (c : Call) (hlevel : c.level.toNat ≤ m_level.toNat) :
    WellFormed m_level now c ↔ c.name.length + overhead now c ≤ bufSize := by
  rw [← length_header]
  refine ⟨fits_of_wellFormed hlevel, fun hlen => ?_⟩
  have hfit : bufSize ≤ bufSize - 2 + 2 := by decide
  obtain ⟨hne, hlast⟩ := header_take (n := bufSize - 2) (Nat.le_trans hlen hfit)
  obtain ⟨out, hemit, hpassed, hbytes⟩ := emit_eq hlen hlast hne
  exact ⟨out, by rw [logv, if_neg (Nat.not_lt.mpr hlevel), hemit, Option.map_some], hpassed, hbytes⟩

def midnight : Now := ⟨124, 0, 1, 0, 0, 0, 0, 1⟩

theorem logv_wellFormed_iff_short :
    WellFormed .LINFO midnight ⟨.LWARN, ascii ['m', '.', 'c'], 1, ascii ['\n']⟩ :=
  (logv_wellFormed_iff .LINFO midnight _ (by decide)).mpr (by decide)

/-- A call in a file whose name is longer than the buffer. -/
def longCall : Call := ⟨.LWARN, List.replicate (bufSize + 1) '/'.toUInt8, 1, ascii ['h', 'i']⟩

theorem logv_long_name : ¬WellFormed .LINFO midnight longCall := by
  intro hwf
  have hlevel : longCall.level.toNat ≤ LogLevel.LINFO.toNat := by decide
  have hlen := fits_of_wellFormed hlevel hwf
  have hname : longCall.name.length = bufSize + 1 := List.length_replicate
  rw [length_header, hname] at hlen
  omega

end NetLibrary.LogRecord
