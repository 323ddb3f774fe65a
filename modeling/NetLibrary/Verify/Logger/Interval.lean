import NetLibrary.Verify.Logger.Date
import NetLibrary.Verify.Logger.Rotate

/-!
# Intervals that keep rotations in different minutes

A period ends within a minute, and not between two, exactly if the interval is no number of whole minutes, or
if it ends before the local epoch, where the division of C makes each period begin one second late. Every
such end after the period of the start makes two rotations in one minute possible; where there is none,
no run has two.
-/

namespace NetLibrary.Logger
open LTS

variable {ρ : Type} {L : Logger} {s s' : Sys ρ} {c : Call ρ} {es : List (Call ρ)} {start t u : Int}

/-- The minute of local time. -/
def minute (L : Logger) (t : Int) : Int := (t - L.timezone) / 60

/-! ## Periods and minutes -/

theorem bucket_mono (hI : 0 < L.rotateInterval) (h : t ≤ u) : L.bucket t ≤ L.bucket u :=
  Int.tdiv_le_tdiv hI (Int.sub_le_sub_right h _)

/-- A period of whole minutes that is not before the epoch ends with a minute. -/
theorem minute_lt (hI : 0 < L.rotateInterval) (hdvd : 60 ∣ L.rotateInterval) (hpos : 0 ≤ L.bucket t)
    (h : L.bucket t < L.bucket u) : L.minute t < L.minute u := by
  obtain ⟨j, hj⟩ := hdvd
  have ht : t - L.timezone < (L.bucket t + 1) * L.rotateInterval := Int.lt_tdiv_add_one_mul_self _ hI
  have hu : (L.bucket t + 1) * L.rotateInterval ≤ u - L.timezone := by
    have hnonneg : 0 ≤ u - L.timezone := by
      by_contra hneg
      have hle : L.bucket u ≤ (0 : Int).tdiv L.rotateInterval := Int.tdiv_le_tdiv hI (Int.le_of_not_le hneg)
      rw [Int.zero_tdiv] at hle
      omega
    rw [← Int.le_ediv_iff_mul_le hI, ← Int.tdiv_eq_ediv_of_nonneg hnonneg]
    exact h
  rw [hj, show (L.bucket t + 1) * (60 * j) = 60 * ((L.bucket t + 1) * j) by ac_rfl] at ht hu
  unfold minute
  omega

/-- The last second of a period and the first of the next one are in one minute. -/
def SplitsMinute (L : Logger) (t : Int) : Prop :=
  L.bucket t ≠ L.bucket (t + 1) ∧ L.minute t = L.minute (t + 1)

/-- Every interval that is not of whole minutes splits a minute at some time. -/
theorem exists_splitsMinute (hI : 0 < L.rotateInterval) (hdvd : ¬60 ∣ L.rotateInterval) (start : Int) :
    ∃ t, start ≤ t ∧ L.bucket start < L.bucket t ∧ SplitsMinute L t := by
  obtain ⟨m, hm, hbucket⟩ : ∃ m : Int, start - L.timezone ≤ m ∧ 0 < m ∧ L.bucket start < m :=
    ⟨(start - L.timezone).natAbs + (L.bucket start).natAbs + 1, by omega⟩
  have hle : m * 1 ≤ m * L.rotateInterval := Int.mul_le_mul_of_nonneg_left hI (Int.le_of_lt hbucket.1)
  have hend : (60 * m + 1) * L.rotateInterval = 60 * (m * L.rotateInterval) + L.rotateInterval := by
    rw [Int.add_mul, Int.mul_assoc, Int.one_mul]
  -- The end of period `60 * m` is `60 * m + 1` intervals after the epoch.
  have hlast : L.bucket (L.timezone + (60 * m + 1) * L.rotateInterval - 1) = 60 * m := by
    rw [bucket, show L.timezone + (60 * m + 1) * L.rotateInterval - 1 - L.timezone =
        L.rotateInterval - 1 + 60 * m * L.rotateInterval by rw [Int.add_mul, Int.one_mul]; omega,
      Int.tdiv_eq_ediv_of_nonneg (by rw [Int.mul_assoc]; omega),
      Int.add_mul_ediv_right _ _ (Int.ne_of_gt hI), Int.ediv_eq_zero_of_lt (by omega) (by omega), Int.zero_add]
  have hnext : L.bucket (L.timezone + (60 * m + 1) * L.rotateInterval - 1 + 1) = 60 * m + 1 := by
    rw [bucket, show L.timezone + (60 * m + 1) * L.rotateInterval - 1 + 1 - L.timezone =
        (60 * m + 1) * L.rotateInterval by omega, Int.mul_tdiv_cancel _ (Int.ne_of_gt hI)]
  refine ⟨L.timezone + (60 * m + 1) * L.rotateInterval - 1, by omega, by omega, ?_, ?_⟩
  · rw [hlast, hnext]
    omega
  · unfold minute
    omega

/-- An interval of whole minutes splits the minute in which the period ends that is the last but one before
the epoch. -/
theorem splitsMinute_before (hI : 0 < L.rotateInterval) (hdvd : 60 ∣ L.rotateInterval)
    (hstart : start - L.timezone ≤ -2 * L.rotateInterval) :
    ∃ t, start ≤ t ∧ L.bucket start < L.bucket t ∧ SplitsMinute L t := by
  have hlast : L.bucket (L.timezone - L.rotateInterval) = -1 := by
    rw [bucket, show L.timezone - L.rotateInterval - L.timezone = -L.rotateInterval by omega, Int.neg_tdiv,
      Int.tdiv_self (Int.ne_of_gt hI)]
  have hnext : L.bucket (L.timezone - L.rotateInterval + 1) = 0 := by
    rw [bucket, show L.timezone - L.rotateInterval + 1 - L.timezone = -(L.rotateInterval - 1) by omega,
      Int.neg_tdiv, Int.tdiv_eq_zero_of_lt (by omega) (by omega), Int.neg_zero]
  have hfirst : L.bucket start ≤ -2 := by
    have hle : L.bucket start ≤ (-2 * L.rotateInterval).tdiv L.rotateInterval := Int.tdiv_le_tdiv hI hstart
    rwa [Int.mul_tdiv_cancel _ (Int.ne_of_gt hI)] at hle
  refine ⟨L.timezone - L.rotateInterval, by omega, by omega, ?_, ?_⟩
  · rw [hlast, hnext]
    decide
  · unfold minute
    omega

/-! ## Runs -/

/-- What a call does to the times of the logger. -/
theorem times_step (h : Opened L s) (hs : step L s c = some s') :
    Opened L s' ∧ s.clock ≤ c.now ∧ s'.clock = c.now ∧
      ((¬Rotates L s c ∧ s'.lastRotate = s.lastRotate ∧ s'.rotated = s.rotated) ∨
        (Rotates L s c ∧ s'.lastRotate = c.now ∧ s'.rotated = s.rotated ++ [c.now])) := by
  have hclock : s.clock ≤ c.now := by
    simp only [step, Option.ite_none_right_eq_some] at hs
    exact hs.1
  have hopened : Opened L { s with clock := c.now } := ⟨h.plain, h.current, h.same⟩
  rcases step_cases h hs with ⟨hlevel, rfl⟩ | ⟨u, rfl, ⟨hno, rfl⟩ | ⟨hrot, rfl⟩⟩
  · exact ⟨hopened, hclock, rfl, .inl ⟨fun hrot => absurd hrot.1 (Nat.not_le.mpr hlevel), rfl, rfl⟩⟩
  · exact ⟨⟨h.plain.setData, h.current, h.same⟩, hclock, rfl, .inl ⟨hno, rfl, rfl⟩⟩
  · obtain ⟨hrotated, htimes, hlast, hclock'⟩ : Opened L (L.rotate _ c.now) ∧ _ := h.stored.rotate
    exact ⟨⟨hrotated.plain.setData, hrotated.current, hrotated.same⟩, hclock, hclock',
      .inr ⟨hrot, hlast, htimes⟩⟩

/-- What whole minutes after the epoch keep: the rotations are in periods, so in minutes, of their own. -/
structure InTime (L : Logger) (start : Int) (s : Sys ρ) : Prop where
  opened : Opened L s
  start_le : start ≤ s.lastRotate
  last_le : s.lastRotate ≤ s.clock
  rotated : ∀ t ∈ s.rotated, 0 ≤ L.bucket t ∧ t ≤ s.lastRotate
  distinct : (s.rotated.map L.minute).Nodup

theorem bucket_start (hI : 0 < L.rotateInterval) (hstart : -2 * L.rotateInterval < start - L.timezone) :
    -1 ≤ L.bucket start := by
  by_contra hlow
  have hneg : (-(start - L.timezone)).tdiv L.rotateInterval = -L.bucket start := Int.neg_tdiv ..
  have hnonneg : 0 ≤ -(start - L.timezone) := by
    by_contra hpos
    have hle := Int.tdiv_le_tdiv hI (show -(start - L.timezone) ≤ 0 by omega)
    rw [hneg, Int.zero_tdiv] at hle
    omega
  have htwo : 2 ≤ -(start - L.timezone) / L.rotateInterval := by
    rw [← Int.tdiv_eq_ediv_of_nonneg hnonneg, hneg]
    omega
  rw [Int.le_ediv_iff_mul_le hI] at htwo
  omega

theorem InTime.step (hI : 0 < L.rotateInterval) (hdvd : 60 ∣ L.rotateInterval)
    (hstart : -2 * L.rotateInterval < start - L.timezone) (h : InTime L start s)
    (hs : Logger.step L s c = some s') : InTime L start s' := by
  obtain ⟨hopened, hclock, hclock', ⟨-, hlast, hrotated⟩ | ⟨hrot, hlast, hrotated⟩⟩ := times_step h.opened hs
  · refine ⟨hopened, hlast ▸ h.start_le, ?_, hrotated ▸ hlast ▸ h.rotated, hrotated ▸ h.distinct⟩
    rw [hlast, hclock']
    exact Int.le_trans h.last_le hclock
  · have hnow : s.lastRotate ≤ c.now := Int.le_trans h.last_le hclock
    have hlater : L.bucket s.lastRotate < L.bucket c.now :=
      lt_of_le_of_ne (bucket_mono hI hnow) (Ne.symm hrot.2.2)
    have hfirst : L.bucket start ≤ L.bucket s.lastRotate := bucket_mono hI h.start_le
    have hlow := bucket_start hI hstart
    refine ⟨hopened, ?_, ?_, ?_, ?_⟩
    · rw [hlast]
      exact Int.le_trans h.start_le hnow
    · rw [hlast, hclock']
    · rw [hlast, hrotated]
      intro t ht
      rcases List.mem_append.mp ht with ht | ht
      · exact ⟨(h.rotated t ht).1, Int.le_trans (h.rotated t ht).2 hnow⟩
      · obtain rfl := List.mem_singleton.mp ht
        exact ⟨by omega, Int.le_refl _⟩
    · rw [hrotated, List.map_append, List.map_singleton]
      refine nodup_snoc h.distinct fun hmem => ?_
      obtain ⟨t, ht, hsame⟩ := List.mem_map.mp hmem
      obtain ⟨hpos, hle⟩ := h.rotated t ht
      have hlt := minute_lt hI hdvd hpos (Int.lt_of_le_of_lt (bucket_mono hI hle) hlater)
      omega

/-- Two calls rotate within a minute that is split. -/
theorem exists_same_minute [Inhabited ρ] (hname : L.filename ≠ []) (hstart : start ≤ t)
    (hlater : L.bucket start < L.bucket t) (hsplit : SplitsMinute L t) :
    ∃ es s, Run (ofFun (step L)) (.init L ρ start) es s ∧ ¬(s.rotated.map L.minute).Nodup := by
  obtain ⟨hends, hminute⟩ := hsplit
  obtain ⟨s₁, hs₁⟩ : ∃ s₁, step L (.init L ρ start) ⟨t, 0, default⟩ = some s₁ := ⟨_, if_pos hstart⟩
  obtain ⟨hopened₁, -, hclock₁, ⟨hno, -⟩ | ⟨-, hlast₁, hrotated₁⟩⟩ := times_step Inv.init.toOpened hs₁
  · exact absurd ⟨Nat.zero_le _, hname, Int.ne_of_gt hlater⟩ hno
  obtain ⟨s₂, hs₂⟩ : ∃ s₂, step L s₁ ⟨t + 1, 0, default⟩ = some s₂ :=
    ⟨_, if_pos (by rw [hclock₁]; exact Int.le_of_lt (Int.lt_succ t))⟩
  obtain ⟨-, -, -, ⟨hno, -⟩ | ⟨-, -, hrotated₂⟩⟩ := times_step hopened₁ hs₂
  · refine absurd ⟨Nat.zero_le _, hname, ?_⟩ hno
    rw [hlast₁]
    exact Ne.symm hends
  refine ⟨_, s₂, (Run.single hs₁).snoc hs₂, ?_⟩
  rw [hrotated₂, hrotated₁]
  simp [Sys.init, hminute]

/-- **Which intervals keep rotations in different minutes** in every run: whole minutes, and a start less than
two intervals before the epoch of local time; or there is no file to rotate. -/
theorem distinct_minutes_iff [Inhabited ρ] (hI : 0 < L.rotateInterval) :
    (∀ es s, Run (ofFun (step L)) (.init L ρ start) es s → (s.rotated.map L.minute).Nodup) ↔
      L.filename = [] ∨ (60 ∣ L.rotateInterval ∧ -2 * L.rotateInterval < start - L.timezone) := by
  constructor
  · intro hall
    by_contra hnot
    rw [not_or, not_and, Int.not_lt] at hnot
    obtain ⟨hname, hnot⟩ := hnot
    obtain ⟨t, hstart, hlater, hsplit⟩ : ∃ t, start ≤ t ∧ L.bucket start < L.bucket t ∧ SplitsMinute L t := by
      by_cases hdvd : 60 ∣ L.rotateInterval
      · exact splitsMinute_before hI hdvd (hnot hdvd)
      · exact exists_splitsMinute hI hdvd start
    obtain ⟨es, s, hrun, hsame⟩ := exists_same_minute (ρ := ρ) hname hstart hlater hsplit
    exact hsame (hall es s hrun)
  · rintro (hname | ⟨hdvd, hstart⟩) es s hrun
    · have hnone : Opened L s ∧ s.rotated = [] := by
        refine hrun.invariant (I := fun s => Opened L s ∧ s.rotated = []) ⟨Inv.init.toOpened, rfl⟩ ?_
        rintro s c s' ⟨h, hrotated⟩ hs
        obtain ⟨hopened, -, -, ⟨-, -, hsame⟩ | ⟨hrot, -⟩⟩ := times_step h hs
        · exact ⟨hopened, hsame.trans hrotated⟩
        · exact absurd hname hrot.2.1
      rw [hnone.2]
      exact List.nodup_nil
    · have hinit : InTime L start (.init L ρ start) :=
        ⟨Inv.init.toOpened, Int.le_refl _, Int.le_refl _, fun t ht => absurd ht List.not_mem_nil,
          List.nodup_nil⟩
      exact (hrun.invariant hinit fun h hs => h.step hI hdvd hstart hs).distinct

/-- A date that fits into the name of a rotated file. -/
def Fits (L : Logger) (t : Int) : Prop := L.filename.length + (L.date t).length ≤ 1024 * 4 - 1

theorem visibleDate_eq_iff (ht : Fits L t) (hu : Fits L u) :
    L.visibleDate t = L.visibleDate u ↔ L.minute t = L.minute u := by
  have hall : ∀ {t}, Fits L t → L.visibleDate t = L.date t := fun h =>
    List.take_of_length_le (Nat.le_sub_of_add_le' h)
  rw [hall ht, hall hu]
  exact date_eq_iff

/-- **When rotation loses no file.** A run keeps every record, and never uses a name twice, after each of its
calls exactly if each rotation has a new date, as far as the date fits into the name; if it fits it
is the minute of local time. No run has two rotations in a minute exactly if the interval is of whole
minutes and the logger starts less than two intervals before the epoch of local time. -/
theorem rotation_safe_iff [Inhabited ρ] (hI : 0 < L.rotateInterval) (start : Int) :
    (∀ es s, Run (fun s c s' => Safe L s' ∧ ofFun (step L) s c s') (.init L ρ start) es s ↔
        Run (guarded (NewDate L) (ofFun (step L))) (.init L ρ start) es s) ∧
      (∀ t u, Fits L t → Fits L u → (L.visibleDate t = L.visibleDate u ↔ L.minute t = L.minute u)) ∧
        ((∀ es s, Run (ofFun (step L)) (.init L ρ start) es s → (s.rotated.map L.minute).Nodup) ↔
          L.filename = [] ∨ (60 ∣ L.rotateInterval ∧ -2 * L.rotateInterval < start - L.timezone)) :=
  ⟨fun _ _ => run_safe_iff, fun _ _ => visibleDate_eq_iff, distinct_minutes_iff hI⟩

/-- A log that is rotated every five seconds, and one that is rotated every minute. -/
def fiveSeconds : Logger := { filename := ['t', '.', 'l', 'o', 'g'], rotateInterval := 5 }

def oneMinute : Logger := { fiveSeconds with rotateInterval := 60 }

/-- The second rotation comes in the minute of the first. -/
def sameMinute : List (Call Nat) := [⟨1, 3, 0⟩, ⟨5, 3, 1⟩, ⟨10, 3, 2⟩]

theorem record_lost : ∃ s, Run (ofFun (step fiveSeconds)) (.init fiveSeconds Nat 0) sameMinute s ∧
    ¬(names fiveSeconds s).Nodup ∧ 0 ∈ s.written ∧
      0 ∉ (logs fiveSeconds s).flatMap (records s.files) := by
  have heval : ((sameMinute.foldlM (step fiveSeconds) (.init fiveSeconds Nat 0)).map fun s =>
      decide (¬(names fiveSeconds s).Nodup ∧ 0 ∈ s.written ∧
        0 ∉ (logs fiveSeconds s).flatMap (records s.files))) = some true := by decide
  obtain ⟨s, hs, hfacts⟩ := Option.map_eq_some_iff.mp heval
  exact ⟨s, run_ofFun_iff.mpr hs, of_decide_eq_true hfacts⟩

/-- Two rotations in minutes of their own. -/
def twoMinutes : List (Call Nat) := [⟨61, 3, 0⟩, ⟨119, 3, 1⟩, ⟨120, 3, 2⟩]

theorem rotation_safe_oneMinute :
    ∃ s, Run (ofFun (step oneMinute)) (.init oneMinute Nat 0) twoMinutes s ∧
      s.rotated = [61, 120] ∧ (s.rotated.map oneMinute.minute).Nodup := by
  have heval : ((twoMinutes.foldlM (step oneMinute) (.init oneMinute Nat 0)).map Sys.rotated) =
      some [61, 120] := by decide
  obtain ⟨s, hs, hrotated⟩ := Option.map_eq_some_iff.mp heval
  have hrun : Run (ofFun (step oneMinute)) (.init oneMinute Nat 0) twoMinutes s := run_ofFun_iff.mpr hs
  exact ⟨s, hrun, hrotated, (rotation_safe_iff (by decide) 0).2.2.mpr (.inr (by decide)) _ _ hrun⟩

end NetLibrary.Logger
