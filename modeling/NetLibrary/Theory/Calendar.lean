import Mathlib.Tactic.Linarith

/-!
# The civil calendar

Dates of the proleptic Gregorian calendar, counted from 1970-01-01. A year begins on 1 March here, so that a
leap day is the last day of its year and the months before it do not depend on it. `days_civil` makes
`civil` injective, and with it the date and the time of day to the minute (`dateTime_eq_iff`).
-/

namespace Calendar

structure Date where
  year : Int
  month : Int
  day : Int
  deriving DecidableEq, Repr

/-- The year of the day `z`, counted from 1 March of year 0, and the day in it: the cycles of 400, 100 and 4
years that have passed, and the years after them. -/
def yearOf (z : Int) : Int × Int :=
  let c := min (z % 146097 / 36524) 3
  let r := z % 146097 - 36524 * c
  let n := min (r % 1461 / 365) 3
  (400 * (z / 146097) + 100 * c + 4 * (r / 1461) + n, r % 1461 - 365 * n)

/-- The month that a day of the year is in, counted from March, and the day in it. -/
def monthOf (doy : Int) : Int × Int :=
  let m := (5 * doy + 2) / 153
  (m, doy - (153 * m + 2) / 5 + 1)

/-- The date of the day `z`. -/
def civil (z : Int) : Date :=
  let (year, doy) := yearOf (z + 719468)
  let (m, day) := monthOf doy
  if m < 10 then ⟨year, m + 3, day⟩ else ⟨year + 1, m - 9, day⟩

/-- The number of days before a year that begins on 1 March. -/
def daysBefore (year : Int) : Int := 365 * year + year / 4 - year / 100 + year / 400

/-- The number of days from 1970-01-01 to a date. -/
def days (d : Date) : Int :=
  let (year, m) := if d.month ≤ 2 then (d.year - 1, d.month + 9) else (d.year, d.month - 3)
  daysBefore year + (153 * m + 2) / 5 + d.day - 1 - 719468

theorem daysBefore_cycles {a c q n : Int} (hc : 0 ≤ c ∧ c ≤ 3) (hq : 0 ≤ q ∧ q ≤ 24) (hn : 0 ≤ n ∧ n ≤ 3) :
    daysBefore (400 * a + 100 * c + 4 * q + n) = 146097 * a + 36524 * c + 1461 * q + 365 * n := by
  simp only [daysBefore]
  omega

theorem yearOf_spec (z : Int) : daysBefore (yearOf z).1 + (yearOf z).2 = z ∧
    0 ≤ (yearOf z).2 ∧ (yearOf z).2 ≤ 365 := by
  have hr : 0 ≤ z % 146097 ∧ z % 146097 < 146097 := by omega
  have hz : 146097 * (z / 146097) + z % 146097 = z := by omega
  simp only [yearOf]
  generalize z % 146097 = r at hr hz ⊢
  have hc : 0 ≤ min (r / 36524) 3 ∧ min (r / 36524) 3 ≤ 3 ∧
      0 ≤ r - 36524 * min (r / 36524) 3 ∧ r - 36524 * min (r / 36524) 3 ≤ 36524 := by omega
  generalize min (r / 36524) 3 = c at hc ⊢
  have hs : 0 ≤ (r - 36524 * c) / 1461 ∧ (r - 36524 * c) / 1461 ≤ 24 := by omega
  have hn : 0 ≤ min ((r - 36524 * c) % 1461 / 365) 3 ∧ min ((r - 36524 * c) % 1461 / 365) 3 ≤ 3 := by omega
  rw [daysBefore_cycles ⟨hc.1, hc.2.1⟩ hs hn]
  omega

theorem monthOf_spec {doy : Int} (h : 0 ≤ doy ∧ doy ≤ 365) :
    (153 * (monthOf doy).1 + 2) / 5 + (monthOf doy).2 - 1 = doy ∧
      0 ≤ (monthOf doy).1 ∧ (monthOf doy).1 ≤ 11 ∧ 1 ≤ (monthOf doy).2 ∧ (monthOf doy).2 ≤ 31 := by
  simp only [monthOf]
  omega

/-- The months after December have the year that comes after the one they are counted in. -/
theorem days_month {year m day : Int} (h : 0 ≤ m ∧ m ≤ 11) :
    days (if m < 10 then ⟨year, m + 3, day⟩ else ⟨year + 1, m - 9, day⟩) =
      daysBefore year + (153 * m + 2) / 5 + day - 1 - 719468 := by
  split
  · simp only [days, if_neg (show ¬m + 3 ≤ 2 by omega), Int.add_sub_cancel]
  · simp only [days, if_pos (show m - 9 ≤ 2 by omega), Int.add_sub_cancel, Int.sub_add_cancel]

theorem days_civil (z : Int) : days (civil z) = z := by
  obtain ⟨hyear, hdoy⟩ := yearOf_spec (z + 719468)
  obtain ⟨hmonth, hm, hm', -⟩ := monthOf_spec hdoy
  calc days (civil z)
    _ = daysBefore (yearOf (z + 719468)).1 + (153 * (monthOf (yearOf (z + 719468)).2).1 + 2) / 5 +
        (monthOf (yearOf (z + 719468)).2).2 - 1 - 719468 := days_month ⟨hm, hm'⟩
    _ = daysBefore (yearOf (z + 719468)).1 + (yearOf (z + 719468)).2 - 719468 := by linarith only [hmonth]
    _ = z := by linarith only [hyear]

/-- A month and a day are numbers of two digits. -/
theorem civil_lt (z : Int) : 0 ≤ (civil z).month ∧ (civil z).month < 100 ∧ 0 ≤ (civil z).day ∧
    (civil z).day < 100 := by
  obtain ⟨-, hdoy⟩ := yearOf_spec (z + 719468)
  obtain ⟨-, hm, hm', hd, hd'⟩ := monthOf_spec hdoy
  simp only [civil]
  split
  · dsimp only
    omega
  · dsimp only
    omega

example : civil 0 = ⟨1970, 1, 1⟩ := by decide
example : civil 11016 = ⟨2000, 2, 29⟩ := by decide
example : civil (-1) = ⟨1969, 12, 31⟩ := by decide

/-- A point in time to the minute. -/
@[ext] structure DateTime extends Date where
  hour : Int
  minute : Int
  deriving DecidableEq, Repr

/-- The date and the time of day, `t` seconds after 1970-01-01. -/
def dateTime (t : Int) : DateTime :=
  { toDate := civil (t / 86400), hour := t % 86400 / 3600, minute := t % 3600 / 60 }

theorem dateTime_lt (t : Int) : 0 ≤ (dateTime t).hour ∧ (dateTime t).hour < 100 ∧
    0 ≤ (dateTime t).minute ∧ (dateTime t).minute < 100 := by
  simp only [dateTime]
  omega

/-- The date and time to the minute are the number of the minute. -/
theorem dateTime_eq_iff {t u : Int} : dateTime t = dateTime u ↔ t / 60 = u / 60 := by
  have hminute : ∀ t, t / 60 = days (dateTime t).toDate * 1440 + (dateTime t).hour * 60 +
      (dateTime t).minute := by
    intro t
    simp only [dateTime, days_civil]
    omega
  constructor
  · intro h
    rw [hminute, hminute, h]
  · intro h
    simp only [dateTime, show t / 86400 = u / 86400 by omega, show t % 86400 / 3600 = u % 86400 / 3600 by omega,
      show t % 3600 / 60 = u % 3600 / 60 by omega]

example : dateTime 951868799 = ⟨⟨2000, 2, 29⟩, 23, 59⟩ := by decide

/-! ## The order of dates -/

/-- An earlier date: year before month before day. -/
def Date.Before (d d' : Date) : Prop :=
  d.year < d'.year ∨ d.year = d'.year ∧ (d.month < d'.month ∨ d.month = d'.month ∧ d.day < d'.day)

theorem daysBefore_le {year year' : Int} (h : year ≤ year') : daysBefore year ≤ daysBefore year' := by
  simp only [daysBefore]
  omega

/-- A day comes before the end of its year. -/
theorem lt_daysBefore (z : Int) : z < daysBefore ((yearOf z).1 + 1) := by
  have hr : 0 ≤ z % 146097 ∧ z % 146097 < 146097 := by omega
  have hz : 146097 * (z / 146097) + z % 146097 = z := by omega
  simp only [yearOf]
  generalize z % 146097 = r at hr hz ⊢
  generalize z / 146097 = a at hz ⊢
  have hc : 0 ≤ min (r / 36524) 3 ∧ min (r / 36524) 3 ≤ 3 ∧ 0 ≤ r - 36524 * min (r / 36524) 3 ∧
      (min (r / 36524) 3 < 3 → r - 36524 * min (r / 36524) 3 < 36524) := by omega
  generalize min (r / 36524) 3 = c at hc ⊢
  have hs : r = 36524 * c + (r - 36524 * c) := by omega
  generalize r - 36524 * c = s at hc hs ⊢
  have hq : 1461 * (s / 1461) + s % 1461 = s ∧ s % 1461 < 1461 := by omega
  generalize s / 1461 = q at hq ⊢
  have hn : 0 ≤ min (s % 1461 / 365) 3 ∧ min (s % 1461 / 365) 3 ≤ 3 ∧
      (min (s % 1461 / 365) 3 < 3 → s % 1461 < 365 * min (s % 1461 / 365) 3 + 365) := by omega
  generalize min (s % 1461 / 365) 3 = n at hn ⊢
  -- the year that follows, after as many cycles
  by_cases hn3 : n < 3
  · rw [show 400 * a + 100 * c + 4 * q + n + 1 = 400 * a + 100 * c + 4 * q + (n + 1) by omega,
      daysBefore_cycles (by omega) (by omega) (by omega)]
    omega
  by_cases hq24 : q < 24
  · rw [show 400 * a + 100 * c + 4 * q + n + 1 = 400 * a + 100 * c + 4 * (q + 1) + 0 by omega,
      daysBefore_cycles (by omega) (by omega) (by omega)]
    omega
  by_cases hc3 : c < 3
  · rw [show 400 * a + 100 * c + 4 * q + n + 1 = 400 * a + 100 * (c + 1) + 4 * 0 + 0 by omega,
      daysBefore_cycles (by omega) (by omega) (by omega)]
    omega
  · rw [show 400 * a + 100 * c + 4 * q + n + 1 = 400 * (a + 1) + 100 * 0 + 4 * 0 + 0 by omega,
      daysBefore_cycles (by omega) (by omega) (by omega)]
    omega

theorem yearOf_before {z z' : Int} (h : z < z') :
    (yearOf z).1 < (yearOf z').1 ∨ (yearOf z).1 = (yearOf z').1 ∧ (yearOf z).2 < (yearOf z').2 := by
  obtain ⟨hyear, -⟩ := yearOf_spec z
  obtain ⟨hyear', hdoy', -⟩ := yearOf_spec z'
  have hend := lt_daysBefore z'
  have hmono : (yearOf z').1 + 1 ≤ (yearOf z).1 → daysBefore ((yearOf z').1 + 1) ≤ daysBefore (yearOf z).1 :=
    daysBefore_le
  obtain ⟨-, hdoy, -⟩ := yearOf_spec z
  rcases Int.lt_trichotomy (yearOf z).1 (yearOf z').1 with hlt | heq | hgt
  · exact .inl hlt
  · rw [heq] at hyear
    exact .inr ⟨heq, by omega⟩
  · have hle := hmono hgt
    omega

theorem monthOf_before {doy doy' : Int} (h : doy < doy') :
    (monthOf doy).1 < (monthOf doy').1 ∨
      (monthOf doy).1 = (monthOf doy').1 ∧ (monthOf doy).2 < (monthOf doy').2 := by
  simp only [monthOf]
  omega

/-- **Days are in the order of their dates.** -/
theorem civil_before {z z' : Int} (h : z < z') : (civil z).Before (civil z') := by
  have hyear := yearOf_before (show z + 719468 < z' + 719468 by omega)
  obtain ⟨-, hdoy⟩ := yearOf_spec (z + 719468)
  obtain ⟨-, hdoy'⟩ := yearOf_spec (z' + 719468)
  obtain ⟨-, hm, hm', -⟩ := monthOf_spec hdoy
  obtain ⟨-, hm₂, hm₂', -⟩ := monthOf_spec hdoy'
  have hmonth : (yearOf (z + 719468)).2 < (yearOf (z' + 719468)).2 → _ := monthOf_before
  simp only [civil, Date.Before]
  generalize (yearOf (z + 719468)).1 = year at *
  generalize (yearOf (z' + 719468)).1 = year' at *
  generalize (yearOf (z + 719468)).2 = doy at *
  generalize (yearOf (z' + 719468)).2 = doy' at *
  generalize monthOf doy = md at *
  generalize monthOf doy' = md' at *
  split <;> split <;> dsimp only <;> omega

end Calendar
