import NetLibrary.Model.LoopOnce
import NetLibrary.Verify.Timer.Table

/-!
# How long `loop_once` sleeps

`m_nextTimeout` is a duration: the time that was left until the first deadline when `refreshNearest`
last ran. Time that passes before `loop_once` passes it to the poller is not taken off. So a wait is at
most the time left to the first deadline exactly when `loop_once` is called soon enough (`onTime_iff`).
-/

namespace NetLibrary.EventBase
open LTS

variable {τ : Type} {b b' : EventBase τ} {clock waitUs interval : Int} {task : τ} {id k p : TimerId}
  {t : TimerTask τ} {ok : Bool}

/-! ## The first deadline -/

theorem TimerId.first_le_of_isLE {k k' : TimerId} (h : (compare k k').isLE = true) :
    k.first ≤ k'.first := by
  rcases Ordering.isLE_iff_eq_lt_or_eq_eq.mp h with hlt | heq
  · rcases TimerId.compare_eq_lt.mp hlt with hlt | ⟨heq, -⟩
    · exact Int.le_of_lt hlt
    · exact Int.le_of_eq heq
  · rw [Std.LawfulEqOrd.eq_of_compare heq]

theorem nearest_eq_minKey : b.nearest = b.timers.minKey?.map TimerId.first := by
  rw [Std.TreeMap.minKey?_eq_head?_keys, ← Std.TreeMap.map_fst_toList_eq_keys, nearest, begin]
  cases b.timers.toList <;> rfl

theorem nearest_congr (h : b'.timers = b.timers) : b'.nearest = b.nearest := by
  rw [nearest, nearest, begin, begin, h]

theorem nearest_mem {n : Int} (h : b.nearest = some n) :
    ∃ (k : TimerId) (t : TimerTask τ), b.timers[k]? = some t ∧ k.first = n := by
  obtain ⟨⟨k, t⟩, hbegin, hn⟩ := Option.map_eq_some_iff.mp h
  exact ⟨k, t, Std.TreeMap.mem_toList_iff_getElem?_eq_some.mp (List.mem_of_mem_head? hbegin), hn⟩

/-- Without an entry, the first deadline is the same or a later one. -/
theorem nearest_erase {n' : Int} (h : b'.timers = b.timers.erase k) (hn' : b'.nearest = some n') :
    ∃ n, b.nearest = some n ∧ n ≤ n' := by
  rw [nearest_eq_minKey, h] at hn'
  obtain ⟨k', hk', rfl⟩ := Option.map_eq_some_iff.mp hn'
  rw [nearest_eq_minKey]
  obtain ⟨m, hm⟩ := Option.isSome_iff_exists.mp
    (Std.TreeMap.isSome_minKey?_of_isSome_minKey?_erase (hk' ▸ Option.isSome_some))
  have hle := Std.TreeMap.minKey?_le_minKey?_erase hk' (Option.get_of_eq_some _ hm)
  exact ⟨m.first, by rw [hm]; rfl, TimerId.first_le_of_isLE hle⟩

theorem nearest_clear : ({ b with timers := ∅, timerRepeats := ∅ } : EventBase τ).nearest = none := by
  rw [nearest_eq_minKey]
  simp

/-! ## What `refreshNearest` computes -/

theorem refreshNearest_nearest : (b.refreshNearest clock).nearest = b.nearest :=
  nearest_congr refreshNearest_timers

/-- The difference is narrowed to an `int` before it is clamped. -/
theorem refreshNearest_nextTimeout {n : Int} (hn : b.nearest = some n) :
    (b.refreshNearest clock).nextTimeout = max 0 ((n - clock).bmod 0x100000000) := by
  obtain ⟨⟨k, t⟩, hbegin, rfl⟩ := Option.map_eq_some_iff.mp hn
  rw [refreshNearest, hbegin]
  simp only [Nat.reducePow]
  split
  · omega
  · omega

/-- The difference fits into an `int`. -/
theorem refreshNearest_nextTimeout_of_near {n : Int} (hn : b.nearest = some n) (hle : n - clock ≤ 2 ^ 30)
    (hge : clock - n ≤ 2 ^ 30) : (b.refreshNearest clock).nextTimeout = max 0 (n - clock) := by
  have hfits : (n - clock).bmod 0x100000000 = n - clock := Int.bmod_eq_of_le (by omega) (by omega)
  rw [refreshNearest_nextTimeout hn, hfits]

/-- A wait of no time exactly when nothing is left until the deadline, and otherwise one of at least 1 ms
and at most what is left. -/
def SoundWait (left wait : Int) : Prop := (wait = 0 ↔ left ≤ 0) ∧ (0 < left → 1 ≤ wait ∧ wait ≤ left)

/-- The low 32 bits of a positive duration are a positive `int`, and those of another one are not. -/
def SignKept (left : Int) : Prop :=
  if 0 < left then 1 ≤ left % 0x100000000 ∧ left % 0x100000000 < 0x80000000
  else left % 0x100000000 = 0 ∨ 0x80000000 ≤ left % 0x100000000

theorem soundWait_iff {left : Int} : SoundWait left (max 0 (left.bmod 0x100000000)) ↔ SignKept left := by
  have hbmod := Int.bmod_def left 0x100000000
  rw [SoundWait, SignKept]
  split at hbmod
  · split
    · omega
    · omega
  · split
    · omega
    · omega

/-- **When the wait is sound.** For every table with a timer and every clock, `m_nextTimeout` is sound
exactly when the time that is left until the first deadline keeps its sign in an `int`. -/
theorem refreshNearest_sound_iff {first : Int} (hfirst : b.nearest = some first) :
    SoundWait (first - clock) (b.refreshNearest clock).nextTimeout ↔ SignKept (first - clock) := by
  rw [refreshNearest_nextTimeout hfirst]
  exact soundWait_iff

/-- The timer is 100 ms ahead. -/
theorem refreshNearest_sound_iff_ahead :
    SoundWait (100 - 0) ((({} : EventBase Nat).runAt 0 100 7 0).1.refreshNearest 0).nextTimeout := by
  apply (refreshNearest_sound_iff rfl).mpr
  rw [SignKept, if_pos (by decide)]
  decide

/-- Of a timer that is 2^32 ms ahead, nothing is left. -/
theorem refreshNearest_not_sound : ¬∀ (b : EventBase Nat) (clock first : Int), 0 ≤ clock →
    b.nearest = some first → -0x8000000000000000 ≤ first - clock → first - clock < 0x8000000000000000 →
    SoundWait (first - clock) (b.refreshNearest clock).nextTimeout := by
  intro h
  have hsound := h (({} : EventBase Nat).runAt 0 0x100000000 7 0).1 0 0x100000000 (Int.le_refl 0) rfl
    (by decide) (by decide)
  have hzero := hsound.1.mp rfl
  exact absurd hzero (by decide)

theorem runAt_refresh (h : b.runAt clock waitUs task interval = (b', id)) (hexit : b.exit = false) :
    ∃ b₀ : EventBase τ, b' = b₀.refreshNearest clock := by
  rw [runAt, if_neg (by simp [hexit])] at h
  split at h
  · cases h
    exact ⟨_, rfl⟩
  · cases h
    exact ⟨_, rfl⟩

/-- `cancel` does not call `refreshNearest`. -/
theorem cancel_nextTimeout (h : b.cancel id = some (b', ok)) :
    b'.nextTimeout = b.nextTimeout ∧ (b'.timers = b.timers ∨ ∃ k, b'.timers = b.timers.erase k) := by
  rw [cancel] at h
  split at h
  · split at h
    · cases h
    · cases h
      exact ⟨rfl, .inr ⟨_, rfl⟩⟩
  · split at h
    · cases h
      exact ⟨rfl, .inr ⟨_, rfl⟩⟩
    · cases h
      exact ⟨rfl, .inl rfl⟩

theorem expire_refresh (h : b.expire clock k (.repeatable p) = some (b', id, task)) :
    ∃ b₀ : EventBase τ, b' = b₀.refreshNearest clock := by
  rw [expire, call, repeatableTimeout] at h
  split at h
  · cases h
  · cases h
    exact ⟨_, rfl⟩

namespace Loop

variable {l l' : Loop τ} {e : Event τ} {es : List (Event τ)}

/-- Every deadline is within 2^30 ms of the clock. -/
def Near (l : Loop τ) : Prop := ∀ (k : TimerId) t, l.base.timers[k]? = some t →
  k.first - l.clock ≤ 2 ^ 30 ∧ l.clock - k.first ≤ 2 ^ 30

/-- A step to a state in which the deadlines are near. -/
def NearStep (l : Loop τ) (e : Event τ) (l' : Loop τ) : Prop := Step l e l' ∧ Near l'

/-- While there is a timer, `m_nextTimeout` is the time that was left, when it was computed, until the
first deadline of then. -/
def Cached (l : Loop τ) : Prop := ∀ n, l.base.nearest = some n → ∃ sampled first,
  l.refreshed = some (sampled, first) ∧ sampled ≤ l.clock ∧ first ≤ n ∧
    l.base.nextTimeout = max 0 (first - sampled)

/-- A call of `refreshNearest`. -/
theorem cached_refresh {b₀ : EventBase τ} (hb : b = b₀.refreshNearest l.clock)
    (hnear : Near (l.refresh b)) : Cached (l.refresh b) := by
  intro n hn
  have hn : b.nearest = some n := hn
  obtain ⟨k, t, ht, rfl⟩ := nearest_mem hn
  obtain ⟨hle, hge⟩ := hnear k t ht
  refine ⟨l.clock, k.first, ?_, Int.le_refl _, Int.le_refl _, ?_⟩
  · rw [refresh, hn]
    rfl
  · subst hb
    exact refreshNearest_nextTimeout_of_near (refreshNearest_nearest.symm.trans hn) hle hge

/-- A call that may take the first timer away, and leaves `m_nextTimeout`. -/
theorem Cached.keep (h : Cached l) (hclock : l.clock ≤ l'.clock)
    (htimeout : l'.base.nextTimeout = l.base.nextTimeout) (hrefreshed : l'.refreshed = l.refreshed)
    (hnearest : ∀ {n'}, l'.base.nearest = some n' → ∃ n, l.base.nearest = some n ∧ n ≤ n') :
    Cached l' := by
  intro n' hn'
  obtain ⟨n, hn, hle⟩ := hnearest hn'
  obtain ⟨sampled, first, hr, hs, hf, ht⟩ := h n hn
  exact ⟨sampled, first, hrefreshed.trans hr, Int.le_trans hs hclock, Int.le_trans hf hle,
    htimeout.trans ht⟩

theorem Cached.step (h : Cached l) (hs : NearStep l e l') : Cached l' := by
  obtain ⟨hs, hnear⟩ := hs
  cases hs with
  | tick =>
    refine h.keep ?_ rfl rfl fun hn => ⟨_, hn, Int.le_refl _⟩
    exact Int.le_add_of_nonneg_right (Int.natCast_nonneg _)
  | runAt _ hexit hrun =>
    obtain ⟨b₀, hb⟩ := runAt_refresh hrun hexit
    exact cached_refresh hb hnear
  | runAtExited _ hexit hrun =>
    obtain ⟨rfl, -⟩ := runAt_exit hrun hexit
    exact h
  | cancel _ hcancel =>
    obtain ⟨htimeout, htimers⟩ := cancel_nextTimeout hcancel
    refine h.keep (Int.le_refl _) htimeout rfl fun {n'} hn => ?_
    rcases htimers with heq | ⟨k, herase⟩
    · exact ⟨n', (nearest_congr heq).symm.trans hn, Int.le_refl _⟩
    · exact nearest_erase herase hn
  | exit => exact h
  | poll | handleTimeout | taskEnd => exact h
  | start _ _ hexpire =>
    cases hexpire
    exact h.keep (Int.le_refl _) rfl rfl (nearest_erase rfl)
  | startRepeatable _ _ hexpire =>
    obtain ⟨b₀, hb⟩ := expire_refresh hexpire
    exact cached_refresh hb hnear
  | timeoutHandled => exact cached_refresh rfl hnear
  | clear =>
    intro n hn
    rw [nearest_clear] at hn
    cases hn

/-- `loop_once` does not wait longer than the time that is left until the first deadline. -/
def OnTime (l : Loop τ) : Event τ → Prop
  | .poll _ wait => ∀ n, l.base.nearest = some n → wait ≤ max 0 (n - l.clock)
  | _ => True

/-- `loop_once` is called with a wait that is short enough, or the deadline that was the first when
`refreshNearest` last ran had come by then, or the time that has passed since is no more than the first
deadline has moved back. -/
def Soon (l : Loop τ) : Event τ → Prop
  | .poll waitUs _ => ∀ n sampled first, l.base.nearest = some n → l.refreshed = some (sampled, first) →
    waitUs ≤ max 0 (n - l.clock) ∨ first ≤ sampled ∨ l.clock - sampled ≤ n - first
  | _ => True

theorem Step.onTime_iff_soon (h : Step l e l') (hcached : Cached l) : OnTime l e ↔ Soon l e := by
  cases h with
  | poll =>
    constructor
    · intro hwait n sampled first hn hr
      obtain ⟨sampled', first', hr', hs, hf, ht⟩ := hcached n hn
      rw [hr] at hr'
      cases hr'
      have hwait := hwait n hn
      omega
    · intro hsoon n hn
      obtain ⟨sampled, first, hr, hs, hf, ht⟩ := hcached n hn
      have hsoon := hsoon n sampled first hn hr
      rw [ht]
      omega
  | tick | runAt | runAtExited | cancel | exit | handleTimeout | start | startRepeatable | taskEnd
  | timeoutHandled | clear => exact iff_of_true trivial trivial

theorem run_cached {clock : Int} (h : Run NearStep { clock } es l) : Cached l := by
  refine h.invariant (I := Cached) (fun n hn => ?_) Cached.step
  have hnone : ({} : EventBase τ).nearest = none := nearest_clear (b := {})
  rw [hnone] at hn
  cases hn

/-- **When the loop oversleeps.** In the runs in which the deadlines stay within 2^30 ms of the clock,
every wait that is passed to the poller is at most the time left until the first deadline exactly when
every call of `loop_once` meets `Soon`. -/
theorem onTime_iff {clock : Int} : Run (guarded OnTime NearStep) { clock } es l ↔
    Run (guarded Soon NearStep) { clock } es l :=
  run_guarded_iff fun h hs => hs.1.onTime_iff_soon (run_cached h)

/-- 60 ms pass between `runAt` and `loop_once`. -/
theorem run_late : ∃ l l' : Loop Nat, Run NearStep { clock := 0 } [.runAt 100 7 0 ⟨100, 1⟩, .tick 60] l ∧
    NearStep l (.poll 1000 100) l' ∧ l.base.nearest = some 100 ∧ l.clock = 60 := by
  have hnear : ∀ (k : TimerId) t, (({} : EventBase Nat).runAt 0 100 7 0).1.timers[k]? = some t →
      k = ⟨100, 1⟩ := by
    intro k t ht
    have hempty : (∅ : Std.TreeMap TimerId (TimerTask Nat))[(⟨100, 1⟩ : TimerId)]? = none := by simp
    have ht : ((∅ : Std.TreeMap TimerId (TimerTask Nat)).insertIfNew ⟨100, 1⟩ (.user 7))[k]? =
      some t := ht
    rw [TimerId.getElem?_insertIfNew hempty] at ht
    split at ht
    · next heq => exact heq.symm
    · simp at ht
  refine ⟨_, _, .cons ⟨.runAt rfl rfl rfl, fun k t ht => ?_⟩ (.single ⟨.tick, fun k t ht => ?_⟩),
    ⟨.poll rfl, fun k t ht => ?_⟩, rfl, rfl⟩
  · obtain rfl := hnear k t ht
    exact ⟨by decide, by decide⟩
  · obtain rfl := hnear k t ht
    exact ⟨by decide, by decide⟩
  · obtain rfl := hnear k t ht
    exact ⟨by decide, by decide⟩

theorem not_onTime : ¬∀ (clock : Int) (es : List (Event Nat)) (l l' : Loop Nat) (e : Event Nat),
    Run NearStep { clock } es l → NearStep l e l' → OnTime l e := by
  intro h
  obtain ⟨l, l', hrun, hpoll, hnearest, hclock⟩ := run_late
  have hwait := h 0 _ l l' _ hrun hpoll 100 hnearest
  rw [hclock] at hwait
  exact absurd hwait (by decide)

end Loop

end NetLibrary.EventBase
