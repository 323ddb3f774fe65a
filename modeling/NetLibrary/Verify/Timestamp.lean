import NetLibrary.Model.Timestamp
import NetLibrary.Theory.FixedWidth
import NetLibrary.Verify.Logger.Record
import NetLibrary.Verify.Slice.Compare

/-!
# Times sort as texts

A readable time and the time in front of a log record are fields of fixed width, from the year down to the second
or the microsecond. As long as the year has four digits, their order as texts is that of the times.
-/

namespace NetLibrary.Timestamp
open LogRecord FixedWidth ListOrder

variable {timezone t u : Int} {w : Nat} {n : Int} {e e' : Entry} {es : List Entry} {m_level : LogLevel}

/-! ## The fields -/

/-- The year of a time has at most four digits. -/
def FourDigits (timezone t : Int) : Prop :=
  0 ≤ (Calendar.civil ((t - timezone) / 86400)).year ∧ (Calendar.civil ((t - timezone) / 86400)).year ≤ 9999

instance : Decidable (FourDigits timezone t) := inferInstanceAs (Decidable (_ ∧ _))

theorem format0D_eq (hn : 0 ≤ n) : format0D w n = pad w n.toNat := by
  obtain ⟨k, rfl⟩ := Int.eq_ofNat_of_zero_le hn
  rw [format0D, if_neg (by omega), pad]
  simp

/-- The numbers of a date. -/
def dateFields (d : Calendar.Date) : List Nat := [d.year.toNat, d.month.toNat, d.day.toNat]

/-- The numbers of the time of day, of `s` seconds. -/
def dayFields (s : Int) : List Nat := [(s % 86400 / 3600).toNat, (s % 3600 / 60).toNat, (s % 60).toNat]

/-- The numbers in a text, from the year down to the second. -/
def fields (timezone t : Int) : List Nat :=
  dateFields (Calendar.civil ((t - timezone) / 86400)) ++ dayFields (t - timezone)

theorem dateFields_lt {d d' : Calendar.Date} (h : d.Before d') (hy : 0 ≤ d.year) (hm : 0 ≤ d.month)
    (hd : 0 ≤ d.day) : dateFields d < dateFields d' := by
  simp only [dateFields, List.cons_lt_cons_iff]
  rcases h with hlt | ⟨heq, hlt | ⟨heq', hlt⟩⟩
  · exact .inl (by omega)
  · exact .inr ⟨by rw [heq], .inl (by omega)⟩
  · exact .inr ⟨by rw [heq], .inr ⟨by rw [heq'], .inl (by omega)⟩⟩

theorem dayFields_lt {s s' : Int} (hday : s / 86400 = s' / 86400) (h : s < s') : dayFields s < dayFields s' := by
  have hhour : 0 ≤ s % 86400 / 3600 := by omega
  have hminute : 0 ≤ s % 3600 / 60 := by omega
  simp only [dayFields, List.cons_lt_cons_iff]
  by_cases hh : s % 86400 / 3600 < s' % 86400 / 3600
  · exact .inl (by omega)
  have hhour' : s % 86400 / 3600 = s' % 86400 / 3600 := by omega
  refine .inr ⟨by rw [hhour'], ?_⟩
  by_cases hm : s % 3600 / 60 < s' % 3600 / 60
  · exact .inl (by omega)
  have hminute' : s % 3600 / 60 = s' % 3600 / 60 := by omega
  exact .inr ⟨by rw [hminute'], .inl (by omega)⟩

theorem fields_lt (ht : FourDigits timezone t) (h : t < u) : fields timezone t < fields timezone u := by
  obtain ⟨hmo, -, hd, -⟩ := Calendar.civil_lt ((t - timezone) / 86400)
  have hlen : (dateFields (Calendar.civil ((t - timezone) / 86400))).length =
      (dateFields (Calendar.civil ((u - timezone) / 86400))).length := rfl
  rw [fields, fields, append_lt_append_iff hlen]
  rcases Int.lt_or_eq_of_le (show (t - timezone) / 86400 ≤ (u - timezone) / 86400 by omega) with hlt | heq
  · exact .inl (dateFields_lt (Calendar.civil_before hlt) ht.1 hmo hd)
  · exact .inr ⟨by rw [heq], dayFields_lt heq (by omega)⟩

theorem fields_lt_iff (ht : FourDigits timezone t) (hu : FourDigits timezone u) :
    fields timezone t < fields timezone u ↔ t < u := by
  refine ⟨fun hfields => ?_, fields_lt ht⟩
  rcases Int.lt_trichotomy t u with hlt | rfl | hgt
  · exact hlt
  · exact absurd hfields (List.lt_irrefl _)
  · exact absurd hfields (List.lt_asymm (fields_lt hu hgt))

/-! ## Readable times -/

def readableFmt : List (Nat × Bytes) :=
  [(4, ['-'.toUInt8]), (2, ['-'.toUInt8]), (2, [' '.toUInt8]), (2, [':'.toUInt8]), (2, [':'.toUInt8]), (2, [])]

theorem fits_fields (ht : FourDigits timezone t) {s₁ s₂ s₃ s₄ s₅ s₆ : Bytes} {fmt : List (Nat × Bytes)}
    {ns : List Nat} (hrest : Fits fmt ns) :
    Fits ((4, s₁) :: (2, s₂) :: (2, s₃) :: (2, s₄) :: (2, s₅) :: (2, s₆) :: fmt) (fields timezone t ++ ns) := by
  obtain ⟨hy, hy'⟩ := ht
  obtain ⟨hmo, hmo', hd, hd'⟩ := Calendar.civil_lt ((t - timezone) / 86400)
  have hyear : (Calendar.civil ((t - timezone) / 86400)).year.toNat < 10000 := by omega
  have hmonth : (Calendar.civil ((t - timezone) / 86400)).month.toNat < 100 := by omega
  have hday : (Calendar.civil ((t - timezone) / 86400)).day.toNat < 100 := by omega
  have hhour : ((t - timezone) % 86400 / 3600).toNat < 100 := by omega
  have hminute : ((t - timezone) % 3600 / 60).toNat < 100 := by omega
  have hsecond : ((t - timezone) % 60).toNat < 100 := by omega
  have h4 : 0 < 4 := by decide
  have h2 : 0 < 2 := by decide
  exact ⟨⟨h4, hyear⟩, ⟨h2, hmonth⟩, ⟨h2, hday⟩, ⟨h2, hhour⟩, ⟨h2, hminute⟩, ⟨h2, hsecond⟩, hrest⟩

/-- A date and a time of day, with any texts behind the numbers. -/
def localText (s₁ s₂ s₃ s₄ s₅ s₆ : Bytes) (tm : Now) : Bytes :=
  format0D 4 (tm.tm_year + 1900) ++ s₁ ++ format0D 2 (tm.tm_mon + 1) ++ s₂ ++ format0D 2 tm.tm_mday ++ s₃ ++
    format0D 2 tm.tm_hour ++ s₄ ++ format0D 2 tm.tm_min ++ s₅ ++ format0D 2 tm.tm_sec ++ s₆

theorem localText_eq (s₁ s₂ s₃ s₄ s₅ s₆ : Bytes) (ht : FourDigits timezone t) :
    localText s₁ s₂ s₃ s₄ s₅ s₆ (localtime timezone t) =
      render [(4, s₁), (2, s₂), (2, s₃), (2, s₄), (2, s₅), (2, s₆)] (fields timezone t) := by
  obtain ⟨hy, -⟩ := ht
  obtain ⟨hmo, -, hd, -⟩ := Calendar.civil_lt ((t - timezone) / 86400)
  have hhour : 0 ≤ (t - timezone) % 86400 / 3600 := by omega
  have hminute : 0 ≤ (t - timezone) % 3600 / 60 := by omega
  have hsecond : 0 ≤ (t - timezone) % 60 := by omega
  simp only [localText, localtime, Calendar.dateTime, Int.sub_add_cancel, format0D_eq hy, format0D_eq hmo,
    format0D_eq hd, format0D_eq hhour, format0D_eq hminute, format0D_eq hsecond]
  simp only [fields, dateFields, dayFields, render, List.append_assoc, List.cons_append, List.nil_append,
    List.append_nil]

theorem readableTime_eq (ht : FourDigits timezone t) :
    readableTime timezone t = render readableFmt (fields timezone t) := by
  have hfits : Fits readableFmt (fields timezone t ++ []) := fits_fields ht trivial
  rw [List.append_nil] at hfits
  have hlen : (render readableFmt (fields timezone t)).length < 1000 := by
    rw [length_render hfits]
    decide
  have hzero : 0 ∉ render readableFmt (fields timezone t) := not_mem_render rfl (by decide)
  have htext := localText_eq ['-'.toUInt8] ['-'.toUInt8] [' '.toUInt8] [':'.toUInt8] [':'.toUInt8] [] ht
  rw [localText, List.append_nil] at htext
  rw [readableTime, htext]
  exact Util.format_eq hzero hlen

theorem readableTime_lt_iff (ht : FourDigits timezone t) (hu : FourDigits timezone u) :
    readableTime timezone t < readableTime timezone u ↔ t < u := by
  have hfits : ∀ {t}, FourDigits timezone t → Fits readableFmt (fields timezone t) := by
    intro t ht
    have hfits : Fits readableFmt (fields timezone t ++ []) := fits_fields ht trivial
    rwa [List.append_nil] at hfits
  have hlt := render_append_lt_iff (x := []) (y := []) (hfits ht) (hfits hu)
  rw [List.append_nil, List.append_nil] at hlt
  rw [readableTime_eq ht, readableTime_eq hu, hlt, fields_lt_iff ht hu, or_iff_left]
  exact fun h => List.lt_irrefl _ h.2

theorem readableTime_eq_iff (ht : FourDigits timezone t) (hu : FourDigits timezone u) :
    readableTime timezone t = readableTime timezone u ↔ t = u := by
  refine ⟨fun heq => ?_, congrArg (readableTime timezone)⟩
  have hlt : ¬t < u := by
    rw [← readableTime_lt_iff ht hu, heq]
    exact List.lt_irrefl _
  have hgt : ¬u < t := by
    rw [← readableTime_lt_iff hu ht, heq]
    exact List.lt_irrefl _
  omega

/-- **Readable times are compared as times**: the texts that `readableTime` makes of two times whose years have at
most four digits are for `Slice::compare` in the order of the times, and equal only for one and the same second. -/
theorem compare_readableTime (mem : Nat → UInt8) (memcmp : Memcmp) (timezone t u : Int) (a b : Slice)
    (ha : a.toString mem = readableTime timezone t) (hb : b.toString mem = readableTime timezone u)
    (ht : FourDigits timezone t) (hu : FourDigits timezone u) :
    (a.compare mem memcmp b < 0 ↔ t < u) ∧ (a.compare mem memcmp b = 0 ↔ t = u) := by
  rw [Slice.compare_neg_iff, Slice.compare_eq_zero_iff, ha, hb]
  exact ⟨readableTime_lt_iff ht hu, readableTime_eq_iff ht hu⟩

/-- A leap day and the day after it, one text behind the other. -/
def leap : Bytes := readableTime 0 951868799 ++ readableTime 0 951868800

theorem compare_readableTime_leap :
    (Slice.ofSize 0 19).compare (leap.getD · 0) default (Slice.ofSize 19 19) < 0 := by
  have hbefore := compare_readableTime (leap.getD · 0) default 0 951868799 951868800 (Slice.ofSize 0 19)
    (Slice.ofSize 19 19) (by decide) (by decide) (by decide) (by decide)
  exact hbefore.1.mpr (by decide)

/-! ## Log records -/

/-- The time in front of a record. -/
def stampFmt : List (Nat × Bytes) :=
  [(4, ['/'.toUInt8]), (2, ['/'.toUInt8]), (2, ['-'.toUInt8]), (2, [':'.toUInt8]), (2, [':'.toUInt8]),
    (2, [':'.toUInt8]), (6, [' '.toUInt8])]

def Entry.stamp (timezone : Int) (e : Entry) : Bytes :=
  render stampFmt (fields timezone e.tv_sec ++ [e.tv_usec.toNat])

/-- The year has at most four digits, the microseconds are less than a second, and the header fits into the
buffer. -/
structure Entry.Ok (timezone : Int) (e : Entry) : Prop where
  year : FourDigits timezone e.tv_sec
  usec : 0 ≤ e.tv_usec ∧ e.tv_usec < 1000000
  name : e.call.name.length + overhead (e.now timezone) e.call ≤ bufSize

theorem Entry.Ok.fits (h : e.Ok timezone) : Fits stampFmt (fields timezone e.tv_sec ++ [e.tv_usec.toNat]) := by
  have husec := h.usec
  refine fits_fields h.year ⟨⟨by decide, ?_⟩, trivial⟩
  simp only [Nat.reducePow]
  omega

/-- The rest of the header. -/
def Entry.rest (e : Entry) : Bytes :=
  formatX e.tid ++ [' '.toUInt8] ++ levelStr e.call.level ++ [' '.toUInt8] ++ e.call.name ++ [':'.toUInt8] ++
    Util.formatD e.call.line ++ [' '.toUInt8, ' '.toUInt8]

theorem stamp_eq (h : e.Ok timezone) : e.stamp timezone =
    render [(4, ['/'.toUInt8]), (2, ['/'.toUInt8]), (2, ['-'.toUInt8]), (2, [':'.toUInt8]), (2, [':'.toUInt8]),
      (2, [':'.toUInt8])] (fields timezone e.tv_sec) ++ (format0D 6 e.tv_usec ++ [' '.toUInt8]) := by
  rw [format0D_eq h.usec.1, Entry.stamp]
  simp only [fields, dateFields, dayFields, stampFmt, render, List.append_assoc, List.cons_append, List.nil_append,
    List.append_nil]

theorem header_eq (h : e.Ok timezone) : header (e.now timezone) e.call = e.stamp timezone ++ e.rest := by
  have htext := localText_eq ['/'.toUInt8] ['/'.toUInt8] ['-'.toUInt8] [':'.toUInt8] [':'.toUInt8] [':'.toUInt8]
    h.year
  rw [stamp_eq h, ← htext]
  unfold header localText Entry.rest
  simp only [List.append_assoc]
  rfl

/-- A record begins with its time. -/
theorem record_eq (h : e.Ok timezone) (message : Bytes) :
    ∃ rest, record (header (e.now timezone) e.call) message = e.stamp timezone ++ rest := by
  have hlen : (e.stamp timezone).length ≤ bufSize - 2 := by
    rw [Entry.stamp, length_render h.fits]
    decide
  rw [record, header_eq h, List.take_append, List.take_of_length_le hlen, List.append_assoc, List.append_assoc]
  exact ⟨_, rfl⟩

/-- An earlier call. -/
def Entry.Before (e e' : Entry) : Prop :=
  e.tv_sec < e'.tv_sec ∨ e.tv_sec = e'.tv_sec ∧ e.tv_usec < e'.tv_usec

theorem record_lt {message message' : Bytes} (h : e.Ok timezone) (h' : e'.Ok timezone) (hbefore : e.Before e') :
    record (header (e.now timezone) e.call) message < record (header (e'.now timezone) e'.call) message' := by
  obtain ⟨rest, hrecord⟩ := record_eq h message
  obtain ⟨rest', hrecord'⟩ := record_eq h' message'
  have husec := h.usec
  have hlen : (fields timezone e.tv_sec).length = (fields timezone e'.tv_sec).length := rfl
  rw [hrecord, hrecord', Entry.stamp, Entry.stamp, render_append_lt_iff h.fits h'.fits, append_lt_append_iff hlen]
  rcases hbefore with hsec | ⟨hsec, husec'⟩
  · exact .inl (.inl (fields_lt h.year hsec))
  · refine .inl (.inr ⟨by rw [hsec], ?_⟩)
    rw [List.cons_lt_cons_iff]
    exact .inl (by omega)

/-- What the calls at enabled levels write. -/
def written (m_level : LogLevel) (timezone : Int) (es : List Entry) : List Bytes :=
  (es.filter fun e => e.call.level.toNat ≤ m_level.toNat).map fun e =>
    record (header (e.now timezone) e.call) e.call.message

theorem log_eq (m_level : LogLevel) (hok : ∀ e ∈ es, e.Ok timezone) : ∃ outs, log m_level timezone es = some outs ∧
    outs.filterMap (·.map Output.bytes) = (written m_level timezone es).map (·.map some) := by
  induction es with
  | nil => exact ⟨[], rfl, rfl⟩
  | cons e es ih =>
    obtain ⟨outs, hlog, hbytes⟩ := ih fun e' he' => hok e' (List.mem_cons_of_mem e he')
    by_cases hlevel : e.call.level.toNat ≤ m_level.toNat
    · obtain ⟨out, hout, -, hrecord⟩ :=
        (logv_wellFormed_iff m_level (e.now timezone) e.call hlevel).mpr (hok e List.mem_cons_self).name
      refine ⟨some out :: outs, ?_, ?_⟩
      · rw [log, hout, hlog]
        rfl
      · rw [written, List.filter_cons_of_pos (by simpa using hlevel), List.map_cons, List.map_cons, ← hrecord]
        exact congrArg (out.bytes :: ·) hbytes
    · refine ⟨none :: outs, ?_, ?_⟩
      · rw [log, logv, if_pos (Nat.not_le.mp hlevel), hlog]
        rfl
      · rw [written, List.filter_cons_of_neg (by simpa using hlevel)]
        exact hbytes

/-- **A log is sorted by time**: in a time zone of one offset, the records that calls with a clock that goes on
write, whatever their levels, threads, names and messages, are in the order of their bytes. -/
theorem log_sorted (m_level : LogLevel) (timezone : Int) (es : List Entry) (hok : ∀ e ∈ es, e.Ok timezone)
    (hes : es.Pairwise Entry.Before) : ∃ (outs : List (Option Output)) (rs : List Bytes),
      log m_level timezone es = some outs ∧ outs.filterMap (·.map Output.bytes) = rs.map (·.map some) ∧
        rs.Pairwise (· < ·) := by
  obtain ⟨outs, hlog, hbytes⟩ := log_eq m_level hok
  refine ⟨outs, written m_level timezone es, hlog, hbytes, List.pairwise_map.mpr ?_⟩
  refine (hes.filter _).imp_of_mem fun hmem hmem' hbefore => ?_
  exact record_lt (hok _ (List.mem_filter.mp hmem).1) (hok _ (List.mem_filter.mp hmem').1) hbefore

/-- Two records of one second, the second of them by a thread and at a level whose texts come before those of
the first. -/
def burst : List Entry :=
  [⟨0, 5, 9, ⟨.LWARN, ascii ['z'], 2, ascii ['b']⟩⟩, ⟨0, 6, 1, ⟨.LFATAL, ascii ['a'], 1, ascii ['a']⟩⟩]

theorem log_sorted_burst : ∃ (outs : List (Option Output)) (rs : List Bytes), log .LINFO 0 burst = some outs ∧
    outs.filterMap (·.map Output.bytes) = rs.map (·.map some) ∧ rs.Pairwise (· < ·) := by
  have hok : ∀ e ∈ burst, e.Ok 0 := by
    intro e he
    rcases List.mem_pair.mp he with rfl | rfl
    · exact ⟨by decide, by decide, by decide⟩
    · exact ⟨by decide, by decide, by decide⟩
  exact log_sorted .LINFO 0 burst hok (List.pairwise_pair.mpr (.inr ⟨rfl, by decide⟩))

end NetLibrary.Timestamp
