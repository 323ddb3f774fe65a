import NetLibrary.Theory.Timers
import NetLibrary.Model.Timer

/-!
# The two timer maps

What each timer function does to `m_timers` and `m_timerRepeats`, and the invariant that relates the
two maps in every run, whatever the users cancel. `registered` reads off them which timers are
registered, and `Step.refines` says that every step changes this table as `Timers.update` does.
-/

namespace NetLibrary

variable {τ : Type}

theorem TimerId.getElem?_insert {V : Type} {m : Std.TreeMap TimerId V} {k a : TimerId} {v : V} :
    (m.insert k v)[a]? = if k = a then some v else m[a]? := by
  simp [Std.TreeMap.getElem?_insert]

theorem TimerId.getElem?_erase {V : Type} {m : Std.TreeMap TimerId V} {k a : TimerId} :
    (m.erase k)[a]? = if k = a then none else m[a]? := by
  simp [Std.TreeMap.getElem?_erase]

theorem TimerId.getElem?_insertIfNew {V : Type} {m : Std.TreeMap TimerId V} {k a : TimerId} {v : V}
    (h : m[k]? = none) : (m.insertIfNew k v)[a]? = if k = a then some v else m[a]? := by
  have hmem : k ∉ m := by simp [Std.TreeMap.mem_iff_isSome_getElem?, h]
  simp [Std.TreeMap.getElem?_insertIfNew, hmem]

theorem TimerId.ne_of_second {k a : TimerId} (h : k.second ≠ a.second) : k ≠ a :=
  fun heq => h (congrArg TimerId.second heq)

namespace EventBase
open LTS Timers

variable {b b' : EventBase τ} {c c' : Config τ} {a : Action τ} {clock now waitUs interval : Int}
  {task : τ} {id i k p : TimerId} {t : TimerTask τ} {tr : TimerRepeatable τ} {ok : Bool}

/-! ## The functions -/

@[simp] theorem refreshNearest_timers : (b.refreshNearest clock).timers = b.timers := by
  rw [refreshNearest]; split <;> rfl

@[simp] theorem refreshNearest_timerRepeats :
    (b.refreshNearest clock).timerRepeats = b.timerRepeats := by
  rw [refreshNearest]; split <;> rfl

@[simp] theorem refreshNearest_timerNum : (b.refreshNearest clock).timerNum = b.timerNum := by
  rw [refreshNearest]; split <;> rfl

theorem runAt_exit (h : b.runAt clock waitUs task interval = (b', id)) (hexit : b.exit = true) :
    b' = b ∧ id = {} := by
  rw [runAt, if_pos hexit] at h
  cases h
  exact ⟨rfl, rfl⟩

theorem runAt_repeating (h : b.runAt clock waitUs task interval = (b', id))
    (hexit : b.exit = false) (hi : interval ≠ 0) :
    ∃ p, p.first = waitUs ∧ p.second = b.timerNum + 2 ∧ id.first = -waitUs ∧
      id.second = b.timerNum + 1 ∧ b'.timerNum = b.timerNum + 2 ∧
      b'.timers = b.timers.insert p (.repeatable id) ∧
      b'.timerRepeats = b.timerRepeats.insert id ⟨waitUs, interval, p, task⟩ := by
  rw [runAt, if_neg (by simp [hexit]), if_pos hi] at h
  cases h
  exact ⟨⟨waitUs, b.timerNum + 2⟩, rfl, rfl, rfl, rfl, by simp⟩

theorem runAt_oneShot (h : b.runAt clock waitUs task 0 = (b', id)) (hexit : b.exit = false) :
    id.first = waitUs ∧ id.second = b.timerNum + 1 ∧ b'.timerNum = b.timerNum + 1 ∧
      b'.timers = b.timers.insertIfNew id (.user task) ∧ b'.timerRepeats = b.timerRepeats := by
  rw [runAt, if_neg (by simp [hexit]), if_neg (by simp)] at h
  cases h
  exact ⟨rfl, rfl, by simp⟩

theorem cancel_repeating (h : b.cancel id = some (b', ok)) (hid : id.first < 0) :
    ∃ tr, b.timerRepeats[id]? = some tr ∧ ok = true ∧ b'.timerNum = b.timerNum ∧
      b'.timers = b.timers.erase tr.tid ∧ b'.timerRepeats = b.timerRepeats.erase id := by
  rw [cancel, if_pos hid] at h
  split at h
  · cases h
  · rename_i tr htr
    cases h
    exact ⟨tr, htr, rfl, rfl, rfl, rfl⟩

theorem cancel_oneShot (h : b.cancel id = some (b', ok)) (hid : ¬id.first < 0) :
    (∃ t, b.timers[id]? = some t ∧ ok = true ∧ b'.timerNum = b.timerNum ∧
      b'.timers = b.timers.erase id ∧ b'.timerRepeats = b.timerRepeats) ∨
    (b.timers[id]? = none ∧ ok = false ∧ b' = b) := by
  rw [cancel, if_neg hid] at h
  split at h
  · rename_i hmem
    cases h
    obtain ⟨t, ht⟩ := Option.isSome_iff_exists.mp
      (Std.TreeMap.isSome_getElem?_eq_contains.trans hmem)
    exact .inl ⟨t, ht, rfl, rfl, rfl, rfl⟩
  · rename_i hmem
    cases h
    refine .inr ⟨?_, rfl, rfl⟩
    rwa [← Std.TreeMap.isSome_getElem?_eq_contains, Option.not_isSome_iff_eq_none] at hmem

theorem due_some (h : b.due now = some (k, t)) : b.timers[k]? = some t ∧ k.first ≤ now := by
  rw [due] at h
  split at h
  · rename_i k' t' hbegin
    split at h
    · rename_i hlt
      cases h
      refine ⟨Std.TreeMap.mem_toList_iff_getElem?_eq_some.mp (List.mem_of_mem_head? hbegin), ?_⟩
      rcases TimerId.compare_eq_lt.mp hlt with hlt | ⟨heq, -⟩
      · exact Int.le_of_lt hlt
      · exact Int.le_of_eq heq
    · cases h
  · cases h

theorem expire_user {u : τ} (h : b.expire clock k (.user u) = some (b', id, task)) :
    id = k ∧ task = u ∧ b'.timerNum = b.timerNum ∧ b'.timers = b.timers.erase k ∧
      b'.timerRepeats = b.timerRepeats := by
  cases h
  exact ⟨rfl, rfl, rfl, rfl, rfl⟩

theorem expire_repeatable (h : b.expire clock k (.repeatable p) = some (b', id, task)) :
    ∃ tr tid, b.timerRepeats[p]? = some tr ∧ id = p ∧ task = tr.task ∧
      tid.first = tr.at + tr.interval ∧ tid.second = b.timerNum + 1 ∧
      b'.timerNum = b.timerNum + 1 ∧
      b'.timers = (b.timers.erase k).insert tid (.repeatable p) ∧
      b'.timerRepeats =
        b.timerRepeats.insert p ⟨tr.at + tr.interval, tr.interval, tid, tr.task⟩ := by
  rw [expire, call, repeatableTimeout] at h
  cases htr : b.timerRepeats[p]? with
  | none =>
    rw [htr] at h
    cases h
  | some tr =>
    rw [htr] at h
    cases h
    exact ⟨tr, ⟨tr.at + tr.interval, b.timerNum + 1⟩, rfl, rfl, rfl, rfl, rfl, by simp⟩

/-! ## The invariant -/

/-- What holds of the two maps in every run. -/
structure Inv (b : EventBase τ) : Prop where
  /-- The pointer of a closure is valid, and its node stores the key of the closure. -/
  closure : ∀ {k p : TimerId}, b.timers[k]? = some (.repeatable p) →
    ∃ tr, b.timerRepeats[p]? = some tr ∧ tr.tid = k
  /-- What `m_timers` has at the key that a node stores is the closure of that node. -/
  entry : ∀ {p : TimerId} {tr t}, b.timerRepeats[p]? = some tr → b.timers[tr.tid]? = some t →
    t = .repeatable p
  key_le : ∀ {k : TimerId} {t}, b.timers[k]? = some t → k.second ≤ b.timerNum
  node : ∀ {p : TimerId} {tr}, b.timerRepeats[p]? = some tr → p.second ≤ b.timerNum ∧
    tr.tid.second ≤ b.timerNum ∧ tr.tid.first = tr.at ∧ tr.interval ≠ 0
  /-- The two maps share no sequence number. -/
  apart : ∀ {k p : TimerId} {t tr}, b.timers[k]? = some t → b.timerRepeats[p]? = some tr →
    k.second ≠ p.second

theorem Inv.init : Inv ({} : EventBase τ) := by
  constructor <;> intros <;> simp_all

theorem Inv.timers_fresh (h : Inv b) (hk : b.timerNum < k.second) : b.timers[k]? = none := by
  cases ht : b.timers[k]? with
  | none => rfl
  | some t => exact absurd (h.key_le ht) (Int.not_le.mpr hk)

theorem Inv.timerRepeats_fresh (h : Inv b) (hp : b.timerNum < p.second) :
    b.timerRepeats[p]? = none := by
  cases htr : b.timerRepeats[p]? with
  | none => rfl
  | some tr => exact absurd (h.node htr).1 (Int.not_le.mpr hp)

/-- A key of one map is no key of the other. -/
theorem Inv.timerRepeats_none (h : Inv b) (ht : b.timers[k]? = some t) :
    b.timerRepeats[k]? = none := by
  cases htr : b.timerRepeats[k]? with
  | none => rfl
  | some tr => exact absurd rfl (h.apart ht htr)

theorem Inv.timers_none (h : Inv b) (htr : b.timerRepeats[p]? = some tr) :
    b.timers[p]? = none := by
  cases ht : b.timers[p]? with
  | none => rfl
  | some t => exact absurd rfl (h.apart ht htr)

/-- Fewer timers, as long as no closure loses its node. -/
theorem Inv.shrink (h : Inv b) (hnum : b'.timerNum = b.timerNum)
    (htimers : ∀ {k : TimerId} {t}, b'.timers[k]? = some t → b.timers[k]? = some t)
    (hnodes : ∀ {p : TimerId} {tr}, b'.timerRepeats[p]? = some tr → b.timerRepeats[p]? = some tr)
    (hclosure : ∀ {k p : TimerId} {tr}, b'.timers[k]? = some (.repeatable p) → b.timerRepeats[p]? = some tr →
      tr.tid = k → b'.timerRepeats[p]? = some tr) : Inv b' where
  closure ht := by
    obtain ⟨tr, htr, hk⟩ := h.closure (htimers ht)
    exact ⟨tr, hclosure ht htr hk, hk⟩
  entry htr ht := h.entry (hnodes htr) (htimers ht)
  key_le ht := hnum ▸ h.key_le (htimers ht)
  node htr := hnum ▸ h.node (hnodes htr)
  apart ht htr := h.apart (htimers ht) (hnodes htr)

theorem erase_some {V : Type} {m : Std.TreeMap TimerId V} {v : V}
    (h : (m.erase k)[i]? = some v) : k ≠ i ∧ m[i]? = some v := by
  rw [TimerId.getElem?_erase] at h
  split at h
  · cases h
  · exact ⟨‹_›, h⟩

theorem insert_some {V : Type} {m : Std.TreeMap TimerId V} {v w : V}
    (h : (m.insert k v)[i]? = some w) : (k = i ∧ v = w) ∨ (k ≠ i ∧ m[i]? = some w) := by
  rw [TimerId.getElem?_insert] at h
  split at h
  · exact .inl ⟨‹_›, Option.some_inj.mp h⟩
  · exact .inr ⟨‹_›, h⟩

theorem Inv.oneShot (h : Inv b) (hid : id.second = b.timerNum + 1)
    (hnum : b'.timerNum = b.timerNum + 1)
    (htimers : b'.timers = b.timers.insertIfNew id (.user task))
    (hnodes : b'.timerRepeats = b.timerRepeats) : Inv b' := by
  have hfresh : b.timers[id]? = none := h.timers_fresh (by omega)
  have hget : ∀ {k : TimerId} {t}, b'.timers[k]? = some t →
      (id = k ∧ .user task = t) ∨ b.timers[k]? = some t := by
    intro k t ht
    rw [htimers, TimerId.getElem?_insertIfNew hfresh] at ht
    split at ht
    · exact .inl ⟨‹_›, Option.some_inj.mp ht⟩
    · exact .inr ht
  constructor
  case closure =>
    intro k p ht
    rcases hget ht with ⟨-, heq⟩ | ht
    · cases heq
    · rw [hnodes]
      exact h.closure ht
  case entry =>
    intro p tr t htr ht
    rw [hnodes] at htr
    rcases hget ht with ⟨heq, -⟩ | ht
    · have := (h.node htr).2.1
      rw [← heq] at this
      omega
    · exact h.entry htr ht
  case key_le =>
    intro k t ht
    rcases hget ht with ⟨rfl, -⟩ | ht
    · omega
    · have := h.key_le ht
      omega
  case node =>
    intro p tr htr
    rw [hnodes] at htr
    obtain ⟨hp, htid, hrest⟩ := h.node htr
    exact ⟨by omega, by omega, hrest⟩
  case apart =>
    intro k t p tr ht htr
    rw [hnodes] at htr
    rcases hget ht with ⟨rfl, -⟩ | ht
    · have := (h.node htr).1
      omega
    · exact h.apart ht htr

/-- The node `p` is new, or its closure has just been taken out of `m_timers`; it gets a closure
under a new key. -/
theorem Inv.addClosure (h : Inv b) (p : TimerId) (tr : TimerRepeatable τ)
    (hp : p.second ≤ b'.timerNum)
    (hkey : ∀ {k : TimerId} {t}, b.timers[k]? = some t → k.second ≠ p.second ∧ t ≠ .repeatable p)
    (htid : b.timerNum < tr.tid.second) (htid' : tr.tid.second ≤ b'.timerNum)
    (hne : tr.tid.second ≠ p.second) (hat : tr.tid.first = tr.at) (hi : tr.interval ≠ 0)
    (htimers : b'.timers = b.timers.insert tr.tid (.repeatable p))
    (hnodes : b'.timerRepeats = b.timerRepeats.insert p tr) : Inv b' := by
  have hnum : b.timerNum < b'.timerNum := Int.lt_of_lt_of_le htid htid'
  constructor
  case closure =>
    intro k q ht
    rw [htimers] at ht
    rw [hnodes]
    rcases insert_some ht with ⟨rfl, heq⟩ | ⟨-, ht⟩
    · cases heq
      exact ⟨tr, by rw [TimerId.getElem?_insert, if_pos rfl], rfl⟩
    · obtain ⟨tr', htr', hk⟩ := h.closure ht
      have hpq : p ≠ q := by
        rintro rfl
        exact (hkey ht).2 rfl
      exact ⟨tr', by rw [TimerId.getElem?_insert, if_neg hpq, htr'], hk⟩
  case entry =>
    intro q tr' t htr ht
    rw [hnodes] at htr
    rw [htimers] at ht
    rcases insert_some htr with ⟨rfl, rfl⟩ | ⟨hpq, htr⟩
    · rw [TimerId.getElem?_insert, if_pos rfl] at ht
      exact (Option.some_inj.mp ht).symm
    · rcases insert_some ht with ⟨heq, -⟩ | ⟨-, ht⟩
      · have := (h.node htr).2.1
        rw [← heq] at this
        omega
      · exact h.entry htr ht
  case key_le =>
    intro k t ht
    rw [htimers] at ht
    rcases insert_some ht with ⟨rfl, -⟩ | ⟨-, ht⟩
    · exact htid'
    · exact Int.le_trans (h.key_le ht) (Int.le_of_lt hnum)
  case node =>
    intro q tr' htr
    rw [hnodes] at htr
    rcases insert_some htr with ⟨rfl, rfl⟩ | ⟨-, htr⟩
    · exact ⟨hp, htid', hat, hi⟩
    · obtain ⟨hq, hq', hrest⟩ := h.node htr
      exact ⟨by omega, by omega, hrest⟩
  case apart =>
    intro k t q tr' ht htr
    rw [htimers] at ht
    rw [hnodes] at htr
    rcases insert_some ht with ⟨rfl, -⟩ | ⟨-, ht⟩
    · rcases insert_some htr with ⟨rfl, rfl⟩ | ⟨-, htr⟩
      · exact hne
      · have := (h.node htr).1
        omega
    · rcases insert_some htr with ⟨rfl, rfl⟩ | ⟨-, htr⟩
      · exact (hkey ht).1
      · exact h.apart ht htr

/-! ## The registered timers -/

/-- The timer that is registered under the public identifier `id`. -/
def registered (b : EventBase τ) (id : TimerId) : Option (Timer τ) :=
  match b.timers[id]? with
  | some (.user task) => some ⟨id.first, 0, task⟩
  | _ => b.timerRepeats[id]?.map fun tr => ⟨tr.at, tr.interval, tr.task⟩

theorem registered_user {u : τ} (h : b.timers[k]? = some (.user u)) :
    registered b k = some ⟨k.first, 0, u⟩ := by
  rw [registered, h]

theorem Inv.registered_node (h : Inv b) (htr : b.timerRepeats[p]? = some tr) :
    registered b p = some ⟨tr.at, tr.interval, tr.task⟩ := by
  rw [registered, h.timers_none htr, htr]
  rfl

theorem Inv.registered_closure (h : Inv b) (ht : b.timers[k]? = some (.repeatable p)) :
    registered b k = none := by
  rw [registered, ht, h.timerRepeats_none ht]
  rfl

theorem registered_none (ht : b.timers[k]? = none) (htr : b.timerRepeats[k]? = none) :
    registered b k = none := by
  rw [registered, ht, htr]
  rfl

theorem registered_congr (ht : b'.timers[i]? = b.timers[i]?)
    (htr : b'.timerRepeats[i]? = b.timerRepeats[i]?) : registered b' i = registered b i := by
  rw [registered, registered, ht, htr]

/-- Where a timer is registered. -/
theorem Inv.registered_some (h : Inv b) {u : Timer τ} (hu : registered b id = some u) :
    (b.timers[id]? = some (.user u.task) ∧ u.deadline = id.first ∧ u.period = 0) ∨
    ∃ tr, b.timerRepeats[id]? = some tr ∧ u = ⟨tr.at, tr.interval, tr.task⟩ ∧ u.period ≠ 0 := by
  rw [registered] at hu
  split at hu
  · rename_i task ht
    cases hu
    exact .inl ⟨ht, rfl, rfl⟩
  · obtain ⟨tr, htr, rfl⟩ := Option.map_eq_some_iff.mp hu
    exact .inr ⟨tr, htr, rfl, (h.node htr).2.2.2⟩

/-! ## The operations on the registered timers -/

/-- Neither map changes. -/
theorem Inv.same (h : Inv b) (hnum : b'.timerNum = b.timerNum) (htimers : b'.timers = b.timers)
    (hnodes : b'.timerRepeats = b.timerRepeats) :
    Inv b' ∧ ∀ i, registered b' i = registered b i := by
  refine ⟨h.shrink hnum ?_ ?_ ?_, fun i => registered_congr (by rw [htimers]) (by rw [hnodes])⟩
  · rw [htimers]
    exact fun ht => ht
  · rw [hnodes]
    exact fun htr => htr
  · rw [hnodes]
    exact fun _ htr _ => htr

/-- One entry of `m_timers` goes, and all nodes stay. -/
theorem Inv.eraseTimer (h : Inv b) (ht : b.timers[k]? = some t) (hnum : b'.timerNum = b.timerNum)
    (htimers : b'.timers = b.timers.erase k) (hnodes : b'.timerRepeats = b.timerRepeats) :
    Inv b' ∧ ∀ i, registered b' i = if k = i then none else registered b i := by
  refine ⟨h.shrink hnum ?_ ?_ ?_, fun i => ?_⟩
  · intro i t hi
    rw [htimers] at hi
    exact (erase_some hi).2
  · rw [hnodes]
    exact fun htr => htr
  · rw [hnodes]
    exact fun _ htr _ => htr
  · split
    · rename_i heq
      subst heq
      apply registered_none
      · rw [htimers, TimerId.getElem?_erase, if_pos rfl]
      · rw [hnodes]
        exact h.timerRepeats_none ht
    · rename_i hne
      refine registered_congr ?_ (by rw [hnodes])
      rw [htimers, TimerId.getElem?_erase, if_neg hne]

/-- The node `p` is registered, and the key of its closure registers nothing. -/
theorem Inv.registered_addClosure (h : Inv b) (p : TimerId) (tr : TimerRepeatable τ)
    (hinv : Inv b') (htid : b.timerNum < tr.tid.second)
    (htimers : b'.timers = b.timers.insert tr.tid (.repeatable p))
    (hnodes : b'.timerRepeats = b.timerRepeats.insert p tr) :
    ∀ i, registered b' i = if p = i then some ⟨tr.at, tr.interval, tr.task⟩ else registered b i := by
  intro i
  split
  · rename_i heq
    subst heq
    apply hinv.registered_node
    rw [hnodes, TimerId.getElem?_insert, if_pos rfl]
  · rename_i hne
    by_cases hi : tr.tid = i
    · subst hi
      rw [hinv.registered_closure (by rw [htimers, TimerId.getElem?_insert, if_pos rfl]),
        registered_none (h.timers_fresh htid) (h.timerRepeats_fresh htid)]
    · apply registered_congr
      · rw [htimers, TimerId.getElem?_insert, if_neg hi]
      · rw [hnodes, TimerId.getElem?_insert, if_neg hne]

/-- What `runAt` does before `exit`. -/
theorem Inv.runAt (h : Inv b) (hrun : b.runAt clock waitUs task interval = (b', id))
    (hexit : b.exit = false) :
    Inv b' ∧ b.timerNum < id.second ∧ id.second ≤ b'.timerNum ∧
      ∀ i, registered b' i = if id = i then some ⟨waitUs, interval, task⟩ else registered b i := by
  by_cases hi : interval = 0
  · subst hi
    obtain ⟨hfirst, hsecond, hnum, htimers, hnodes⟩ := runAt_oneShot hrun hexit
    have hfresh : b.timers[id]? = none := h.timers_fresh (by omega)
    refine ⟨h.oneShot hsecond hnum htimers hnodes, by omega, by omega, fun i => ?_⟩
    split
    · rename_i heq
      subst heq
      rw [← hfirst]
      apply registered_user
      rw [htimers, TimerId.getElem?_insertIfNew hfresh, if_pos rfl]
    · rename_i hne
      apply registered_congr
      · rw [htimers, TimerId.getElem?_insertIfNew hfresh, if_neg hne]
      · rw [hnodes]
  · obtain ⟨p, hp, hp2, -, hsecond, hnum, htimers, hnodes⟩ := runAt_repeating hrun hexit hi
    have hkey : ∀ {k : TimerId} {t}, b.timers[k]? = some t →
        k.second ≠ id.second ∧ t ≠ .repeatable id := by
      intro k t ht
      have := h.key_le ht
      refine ⟨by omega, ?_⟩
      rintro rfl
      obtain ⟨tr, htr, -⟩ := h.closure ht
      have := (h.node htr).1
      omega
    have htid : b.timerNum < p.second := by omega
    have htid' : p.second ≤ b'.timerNum := by omega
    have hne : p.second ≠ id.second := by omega
    have hinv : Inv b' := h.addClosure id ⟨waitUs, interval, p, task⟩ (by omega) hkey htid htid'
      hne hp hi htimers hnodes
    refine ⟨hinv, by omega, by omega, ?_⟩
    exact h.registered_addClosure id ⟨waitUs, interval, p, task⟩ hinv htid htimers hnodes

/-- What `cancel` does, when its lookup does not fail. -/
theorem Inv.cancel (h : Inv b) (hcancel : b.cancel id = some (b', ok)) :
    Inv b' ∧ b'.timerNum = b.timerNum ∧
      ∀ i, registered b' i = if id = i ∧ ok = true then none else registered b i := by
  by_cases hid : id.first < 0
  · obtain ⟨tr, htr, rfl, hnum, htimers, hnodes⟩ := cancel_repeating hcancel hid
    have hinv : Inv b' := by
      apply h.shrink hnum
      · intro k t ht
        rw [htimers] at ht
        exact (erase_some ht).2
      · intro p tr' htr'
        rw [hnodes] at htr'
        exact (erase_some htr').2
      -- The closure of the node goes with it.
      · intro k p tr' ht htr' hk
        rw [htimers] at ht
        obtain ⟨hne, ht⟩ := erase_some ht
        rw [hnodes, TimerId.getElem?_erase, if_neg, htr']
        rintro rfl
        rw [htr] at htr'
        cases htr'
        exact hne hk
    refine ⟨hinv, hnum, fun i => ?_⟩
    simp only [and_true]
    split
    · rename_i heq
      subst heq
      apply registered_none
      · rw [htimers, TimerId.getElem?_erase, h.timers_none htr, ite_self]
      · rw [hnodes, TimerId.getElem?_erase, if_pos rfl]
    · rename_i hne
      have hnode : b'.timerRepeats[i]? = b.timerRepeats[i]? := by
        rw [hnodes, TimerId.getElem?_erase, if_neg hne]
      by_cases htid : tr.tid = i
      · subst htid
        have hnone : b'.timers[tr.tid]? = none := by
          rw [htimers, TimerId.getElem?_erase, if_pos rfl]
        cases ht : b.timers[tr.tid]? with
        | none => exact registered_congr (hnone.trans ht.symm) hnode
        | some t =>
          obtain rfl := h.entry htr ht
          rw [h.registered_closure ht]
          exact registered_none hnone (hnode.trans (h.timerRepeats_none ht))
      · refine registered_congr ?_ hnode
        rw [htimers, TimerId.getElem?_erase, if_neg htid]
  · rcases cancel_oneShot hcancel hid with ⟨t, ht, rfl, hnum, htimers, hnodes⟩ | ⟨-, rfl, rfl⟩
    · obtain ⟨hinv, hregistered⟩ := h.eraseTimer ht hnum htimers hnodes
      exact ⟨hinv, hnum, by simpa using hregistered⟩
    · exact ⟨h, rfl, fun i => by simp⟩

/-- What the body of the loop in `handleTimeout` does before the user's task runs. -/
theorem Inv.expire (h : Inv b) (ht : b.timers[k]? = some t)
    (hexpire : b.expire clock k t = some (b', id, task)) :
    Inv b' ∧ b.timerNum ≤ b'.timerNum ∧
      (∃ u, registered b id = some u ∧ u.deadline = k.first ∧ u.task = task) ∧
      ∀ i, registered b' i = if id = i then (registered b i).bind Timer.next else registered b i := by
  cases t with
  | user u =>
    obtain ⟨rfl, rfl, hnum, htimers, hnodes⟩ := expire_user hexpire
    obtain ⟨hinv, hregistered⟩ := h.eraseTimer ht hnum htimers hnodes
    refine ⟨hinv, Int.le_of_eq hnum.symm, ⟨_, registered_user ht, rfl, rfl⟩, fun i => ?_⟩
    rw [hregistered i]
    split
    · rename_i heq
      subst heq
      rw [registered_user ht]
      rfl
    · rfl
  | repeatable p =>
    obtain ⟨tr, tid, htr, rfl, rfl, hfirst, hsecond, hnum, htimers, hnodes⟩ :=
      expire_repeatable hexpire
    obtain ⟨tr', htr', hk⟩ := h.closure ht
    rw [htr] at htr'
    cases htr'
    obtain ⟨hp, -, hat, hi⟩ := h.node htr
    -- Between `erase` and `m_timers[tr->tid] =` the node has no closure.
    obtain ⟨herased, hregistered⟩ : Inv { b with timers := b.timers.erase k } ∧
        ∀ i, registered { b with timers := b.timers.erase k } i =
          if k = i then none else registered b i := by
      refine h.eraseTimer ht ?_ ?_ ?_ <;> rfl
    have hkey : ∀ {i : TimerId} {t}, (b.timers.erase k)[i]? = some t →
        i.second ≠ id.second ∧ t ≠ .repeatable id := by
      intro i t ht
      obtain ⟨hne, ht⟩ := erase_some ht
      refine ⟨h.apart ht htr, ?_⟩
      rintro rfl
      obtain ⟨tr', htr', hi⟩ := h.closure ht
      rw [htr] at htr'
      cases htr'
      exact hne (hk.symm.trans hi)
    have htid : b.timerNum < tid.second := by omega
    have htid' : tid.second ≤ b'.timerNum := by omega
    have hne : tid.second ≠ id.second := by omega
    have hinv : Inv b' := herased.addClosure id
      ⟨tr.at + tr.interval, tr.interval, tid, tr.task⟩ (by omega) hkey htid htid' hne hfirst hi
      htimers hnodes
    have hadded : ∀ i, registered b' i = if id = i then
        some ⟨tr.at + tr.interval, tr.interval, tr.task⟩
        else registered { b with timers := b.timers.erase k } i :=
      herased.registered_addClosure id ⟨tr.at + tr.interval, tr.interval, tid, tr.task⟩ hinv htid htimers
        hnodes
    refine ⟨hinv, by omega, ⟨_, h.registered_node htr, ?_, rfl⟩, fun i => ?_⟩
    · rw [← hk, hat]
    rw [hadded i, hregistered i]
    split
    · rename_i heq
      subst heq
      rw [h.registered_node htr, Option.bind_some, Timer.next, if_neg hi]
    · split
      · rename_i hki
        subst hki
        exact (h.registered_closure ht).symm
      · rfl

end EventBase

end NetLibrary
