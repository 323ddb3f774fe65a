import Mathlib.Order.Bounds.Defs
import NetLibrary.Theory.Run

/-!
# Histories of a timer service

A timer service registers timers under identifiers, cancels them and starts their tasks. A history
is the list of what it did. `live` reads off a history which timers are still to be started, and
for which deadline. `Lawful` says what a service may do next: it registers only new identifiers, and
it starts only live timers, for their deadlines and not before them. `Timer.owed` and `Timer.settled` are
about a service that starts all that is due at a time.
-/

namespace Timers
open LTS

/-- A one-shot timer has the period 0. -/
structure Timer (τ : Type*) where
  deadline : Int
  period : Int
  task : τ

/-- What is live of a timer once it has been started. -/
def Timer.next (t : Timer τ) : Option (Timer τ) :=
  if t.period = 0 then none else some { t with deadline := t.deadline + t.period }

inductive Event (ι τ : Type*)
  | register (id : ι) (t : Timer τ)
  | cancel (id : ι) (removed : Bool)
  | start (id : ι) (deadline now : Int) (task : τ)
  | clear
  | other

def Issued (es : List (Event ι τ)) (id : ι) : Prop := ∃ t, .register id t ∈ es

variable {ι τ : Type*} {es es' : List (Event ι τ)} {e : Event ι τ} {id : ι} {t u : Timer τ}

theorem Issued.append (h : Issued es id) : Issued (es ++ es') id :=
  h.imp fun _ hmem => List.mem_append_left _ hmem

/-- Only a registration issues an identifier. -/
theorem issued_snoc (h : Issued (es ++ [e]) id) : Issued es id ∨ ∃ t, e = .register id t := by
  obtain ⟨t, hmem⟩ := h
  rcases List.mem_append.mp hmem with hmem | hmem
  · exact .inl ⟨t, hmem⟩
  · exact .inr ⟨t, (List.mem_singleton.mp hmem).symm⟩

variable [DecidableEq ι]

/-- What an event does to the timer `id`. -/
def update (id : ι) (s : Option (Timer τ)) : Event ι τ → Option (Timer τ)
  | .register i t => if i = id then some t else s
  | .cancel i removed => if i = id ∧ removed = true then none else s
  | .start i _ _ _ => if i = id then s.bind Timer.next else s
  | .clear => none
  | .other => s

/-- The timer `id` as it stands after the events `es`, if it is still to be started. -/
def live (es : List (Event ι τ)) (id : ι) : Option (Timer τ) := es.foldl (update id) none

/-- The deadlines for which the timer `id` was started. -/
def starts (id : ι) (es : List (Event ι τ)) : List Int :=
  es.filterMap fun
    | .start i deadline _ _ => if i = id then some deadline else none
    | _ => none

inductive Legal (es : List (Event ι τ)) : Event ι τ → Prop
  | register {i t} : ¬Issued es i → Legal es (.register i t)
  | cancel {i removed} : Legal es (.cancel i removed)
  | start {i t now} : live es i = some t → t.deadline ≤ now →
    Legal es (.start i t.deadline now t.task)
  | clear : Legal es .clear
  | other : Legal es .other

def Lawful (es : List (Event ι τ)) : Prop := Admissible Legal es

theorem live_snoc : live (es ++ [e]) id = update id (live es id) e := by
  rw [live, List.foldl_append, List.foldl_cons, List.foldl_nil, live]

theorem starts_append : starts id (es ++ es') = starts id es ++ starts id es' :=
  List.filterMap_append

/-- An event that is no registration of `id` does not make it live. -/
theorem update_none (h : ∀ t, e ≠ .register id t) : update id none e = none := by
  cases e with
  | register i t =>
    apply if_neg
    rintro rfl
    exact h t rfl
  | cancel => exact ite_self _
  | start => exact ite_self _
  | clear | other => rfl

/-- A live timer was registered. -/
theorem issued_of_live (h : live es id = some t) : Issued es id := by
  induction es using List.reverseRecOn generalizing t with
  | nil => cases h
  | append_singleton es e ih =>
    rw [live_snoc] at h
    cases hl : live es id with
    | some u => exact (ih hl).append
    | none =>
      by_contra hno
      rw [hl, update_none] at h
      · cases h
      · rintro t rfl
        exact hno ⟨t, List.mem_append_right _ (List.mem_singleton.mpr rfl)⟩

/-! ## The schedule of a timer -/

/-- What the history says of a timer that was registered as `t`. -/
structure OnSchedule (id : ι) (t : Timer τ) (es : List (Event ι τ)) : Prop where
  starts_eq : starts id es =
    (List.range (starts id es).length).map fun (k : Nat) => t.deadline + k * t.period
  once : t.period = 0 → (starts id es).length ≤ 1
  live_eq : ∀ u, live es id = some u →
    u = { t with deadline := t.deadline + (starts id es).length * t.period } ∧
      (t.period = 0 → (starts id es).length = 0)

/-- A new timer is on its schedule. -/
theorem OnSchedule.register (hlive : live es id = some t) (hstarts : starts id es = []) :
    OnSchedule id t es := by
  refine ⟨?_, fun _ => ?_, fun u hu => ⟨?_, fun _ => ?_⟩⟩
  · rw [hstarts]; rfl
  · rw [hstarts]; exact Nat.zero_le 1
  · rw [hlive, Option.some_inj] at hu
    rw [← hu, hstarts]
    simp
  · rw [hstarts]; rfl

/-- An event after which the timer is as before, or no longer live, and that does not start it. -/
theorem OnSchedule.keep (h : OnSchedule id t es) (hstarts : starts id [e] = [])
    (hlive : update id (live es id) e = live es id ∨
      update id (live es id) e = none) : OnSchedule id t (es ++ [e]) := by
  have heq : starts id (es ++ [e]) = starts id es := by
    rw [starts_append, hstarts, List.append_nil]
  refine ⟨?_, ?_, fun u hu => ?_⟩
  · rw [heq]; exact h.starts_eq
  · rw [heq]; exact h.once
  · rw [live_snoc] at hu
    rw [heq]
    rcases hlive with hlive | hlive
    · exact h.live_eq u (hlive ▸ hu)
    · rw [hlive] at hu
      cases hu

/-- A start is for the next deadline of the schedule. -/
theorem OnSchedule.start (h : OnSchedule id t es) (hu : live es id = some u) (now : Int) :
    OnSchedule id t (es ++ [.start id u.deadline now u.task]) := by
  obtain ⟨rfl, hzero⟩ := h.live_eq u hu
  have heq : starts id (es ++ [.start id (t.deadline + (starts id es).length * t.period) now
      t.task]) = starts id es ++ [t.deadline + (starts id es).length * t.period] := by
    rw [starts_append]
    simp [starts]
  refine ⟨?_, fun hp => ?_, fun v hv => ?_⟩
  · rw [heq, List.length_append, List.length_singleton, List.range_succ, List.map_append,
      ← h.starts_eq]
    rfl
  · rw [heq, List.length_append, hzero hp]
    exact Nat.le_refl 1
  · rw [live_snoc, hu] at hv
    simp only [update, if_true, Option.bind_some, Timer.next] at hv
    split at hv
    · cases hv
    · rename_i hp
      rw [heq, List.length_append, List.length_singleton, ← Option.some_inj.mp hv]
      refine ⟨?_, fun h0 => absurd h0 hp⟩
      have hnext : t.deadline + (starts id es).length * t.period + t.period =
          t.deadline + ((starts id es).length + 1 : Nat) * t.period := by
        push_cast
        rw [Int.add_mul, Int.one_mul, Int.add_assoc]
      rw [hnext]

/-- A timer that was not issued was not started. -/
theorem starts_eq_nil (h : Lawful es) (hno : ¬Issued es id) : starts id es = [] := by
  induction h with
  | nil => rfl
  | @snoc es e _ hok ih =>
    have hold : ¬Issued es id := fun h => hno h.append
    rw [starts_append, ih hold, List.nil_append]
    cases hok with
    | start hlive _ =>
      apply List.filterMap_eq_nil_iff.mpr
      rintro _ hmem
      cases List.mem_singleton.mp hmem
      apply if_neg
      rintro rfl
      exact hold (issued_of_live hlive)
    | register | cancel | clear | other => rfl

/-- **Timers are started on schedule.** A timer is started for its first deadline plus the number of
earlier starts times its period, and a one-shot timer at most once. -/
theorem Lawful.onSchedule (h : Lawful es) (hreg : .register id t ∈ es) : OnSchedule id t es := by
  induction h with
  | nil => cases hreg
  | @snoc es e hlaw hok ih =>
    cases hok with
    | @register i u hnew =>
      rcases List.mem_append.mp hreg with hreg | hreg
      · have hne : i ≠ id := by
          rintro rfl
          exact hnew ⟨t, hreg⟩
        exact (ih hreg).keep rfl (.inl (if_neg hne))
      · cases List.mem_singleton.mp hreg
        refine .register ?_ ?_
        · rw [live_snoc]
          exact if_pos rfl
        · rw [starts_append, starts_eq_nil hlaw hnew]
          rfl
    | @start i u now hlive _ =>
      have hreg : .register id t ∈ es := (List.mem_append.mp hreg).resolve_right (by simp)
      by_cases hid : i = id
      · subst hid
        exact (ih hreg).start hlive now
      · refine (ih hreg).keep ?_ (.inl (if_neg hid))
        simp [starts, hid]
    | @cancel i removed =>
      have hreg : .register id t ∈ es := (List.mem_append.mp hreg).resolve_right (by simp)
      refine (ih hreg).keep rfl ?_
      rw [update]
      split
      · exact .inr rfl
      · exact .inl rfl
    | clear =>
      have hreg : .register id t ∈ es := (List.mem_append.mp hreg).resolve_right (by simp)
      exact (ih hreg).keep rfl (.inr rfl)
    | other =>
      have hreg : .register id t ∈ es := (List.mem_append.mp hreg).resolve_right (by simp)
      exact (ih hreg).keep rfl (.inl rfl)

/-- No start comes before its deadline, and it starts the task that was registered. -/
theorem Lawful.start_of_mem (h : Lawful es) {deadline now : Int} {task : τ}
    (hmem : .start id deadline now task ∈ es) :
    deadline ≤ now ∧ ∃ t, .register id t ∈ es ∧ t.task = task := by
  induction h with
  | nil => cases hmem
  | snoc hlaw hok ih =>
    rcases List.mem_append.mp hmem with hmem | hmem
    · obtain ⟨hle, t, hreg, htask⟩ := ih hmem
      exact ⟨hle, t, List.mem_append_left _ hreg, htask⟩
    · cases List.mem_singleton.mp hmem
      cases hok with
      | start hlive hle =>
        obtain ⟨t, hreg⟩ := issued_of_live hlive
        obtain ⟨rfl, -⟩ := (Lawful.onSchedule hlaw hreg).live_eq _ hlive
        exact ⟨hle, t, List.mem_append_left _ hreg, rfl⟩

/-- **A timer that is no longer live is never started again.** -/
theorem Lawful.not_started (h : Lawful (es ++ es')) (hissued : Issued es id)
    (hnone : live es id = none) :
    live (es ++ es') id = none ∧ ∀ deadline now task, .start id deadline now task ∉ es' := by
  induction es' using List.reverseRecOn with
  | nil => exact ⟨by rwa [List.append_nil], by simp⟩
  | append_singleton es' e ih =>
    rw [← List.append_assoc] at h ⊢
    obtain ⟨hlaw, hok⟩ := admissible_snoc_iff.mp h
    obtain ⟨hlive, hno⟩ := ih hlaw
    refine ⟨?_, fun deadline now task hmem => ?_⟩
    · rw [live_snoc, hlive, update_none]
      rintro t rfl
      cases hok with
      | register hnew => exact hnew hissued.append
    · rcases List.mem_append.mp hmem with hmem | hmem
      · exact hno _ _ _ hmem
      · cases List.mem_singleton.mp hmem
        cases hok with
        | start hl _ => rw [hlive] at hl; cases hl

/-! ## What is due -/

namespace Timer

variable {now : Int}

/-- How often the timer is to be started by the time `now`. -/
def owed (now : Int) (t : Timer τ) : Nat :=
  if now < t.deadline then 0
  else if t.period = 0 then 1
  else ((now - t.deadline) / t.period).toNat + 1

/-- What is live of the timer once it has been started as often as that. -/
def settled (now : Int) (t : Timer τ) : Option (Timer τ) :=
  if now < t.deadline then some t
  else if t.period = 0 then none
  else some { t with deadline := t.deadline + ((now - t.deadline) / t.period + 1) * t.period }

theorem owed_future (h : now < t.deadline) : t.owed now = 0 := if_pos h

theorem settled_future (h : now < t.deadline) : t.settled now = some t := if_pos h

/-- One start fewer until the next deadline. -/
theorem sub_next_ediv (hp : t.period ≠ 0) :
    (now - (t.deadline + t.period)) / t.period = (now - t.deadline) / t.period - 1 := by
  have hsub : now - (t.deadline + t.period) = (now - t.deadline) + (-1) * t.period := by omega
  rw [hsub, Int.add_mul_ediv_right _ _ hp]
  rfl

theorem owed_next (hdue : t.deadline ≤ now) (hp : 0 ≤ t.period) :
    t.next.elim 0 (owed now) + 1 = t.owed now := by
  by_cases h0 : t.period = 0
  · rw [next, if_pos h0, owed, if_neg (Int.not_lt.mpr hdue), if_pos h0]
    rfl
  · have hpos : 0 < t.period := by omega
    rw [next, if_neg h0, owed, if_neg (Int.not_lt.mpr hdue), if_neg h0]
    simp only [Option.elim_some, owed, if_neg h0]
    split
    · rename_i hlater
      rw [Int.ediv_eq_zero_of_lt (by omega) (by omega)]
      rfl
    · have hq : 0 ≤ (now - (t.deadline + t.period)) / t.period :=
        Int.ediv_nonneg (by omega) (by omega)
      rw [sub_next_ediv h0] at hq ⊢
      omega

theorem settled_next (hdue : t.deadline ≤ now) (hp : 0 ≤ t.period) :
    t.next.bind (settled now) = t.settled now := by
  by_cases h0 : t.period = 0
  · rw [next, if_pos h0, settled, if_neg (Int.not_lt.mpr hdue), if_pos h0]
    rfl
  · have hpos : 0 < t.period := by omega
    rw [next, if_neg h0, settled, if_neg (Int.not_lt.mpr hdue), if_neg h0]
    simp only [Option.bind_some, settled, if_neg h0]
    split
    · rename_i hlater
      rw [Int.ediv_eq_zero_of_lt (by omega) (by omega), Int.zero_add, Int.one_mul]
    · rw [sub_next_ediv h0]
      congr 2
      rw [Int.sub_add_cancel, Int.add_mul, Int.one_mul]
      omega

theorem settled_period (hu : t.settled now = some u) : u.period = t.period := by
  rw [settled] at hu
  split at hu
  · cases hu
    rfl
  · split at hu
    · cases hu
    · cases hu
      rfl

/-- A timer that was due and remains live is a repeating one. -/
theorem settled_isSome_iff (hdue : t.deadline ≤ now) : (t.settled now).isSome ↔ t.period ≠ 0 := by
  rw [settled, if_neg (Int.not_lt.mpr hdue)]
  split
  · rename_i h0
    exact iff_of_false Bool.false_ne_true fun h => h h0
  · rename_i h0
    exact iff_of_true rfl h0

/-- What is live after the starts that were due is live for its first deadline after `now`. -/
theorem settled_deadline (hdue : t.deadline ≤ now) (hp : 0 < t.period) (hu : t.settled now = some u) :
    IsLeast {d | now < d ∧ ∃ n : Nat, d = t.deadline + n * t.period} u.deadline := by
  have h0 : t.period ≠ 0 := by omega
  rw [settled, if_neg (Int.not_lt.mpr hdue), if_neg h0] at hu
  cases hu
  have hq : 0 ≤ (now - t.deadline) / t.period := Int.ediv_nonneg (by omega) (by omega)
  refine ⟨⟨?_, ((now - t.deadline) / t.period + 1).toNat, ?_⟩, ?_⟩
  · have hlt := Int.lt_ediv_add_one_mul_self (now - t.deadline) hp
    simp only
    omega
  · rw [Int.toNat_of_nonneg (by omega)]
  · rintro d ⟨hd, n, rfl⟩
    have hn : (now - t.deadline) / t.period < n := Int.ediv_lt_of_lt_mul hp (by omega)
    have hmul : ((now - t.deadline) / t.period + 1) * t.period ≤ n * t.period :=
      Int.mul_le_mul_of_nonneg_right (by omega) (Int.le_of_lt hp)
    simp only
    omega

end Timer

end Timers
