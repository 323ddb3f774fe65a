import NetLibrary.Verify.Timer.Cancel

/-!
# What one `handleTimeout` starts

With tasks that do not touch timers, `handleTimeout` starts what was due when it sampled the clock, and
nothing else (`handleTimeout_fires`). Every round of its loop takes one deadline off what is owed, so the
loop ends; what a repeating timer puts back into `m_timers` comes after what was taken out, so the starts
are in order.
-/

namespace NetLibrary.EventBase
open LTS Timers

variable {τ : Type} {b b' : EventBase τ} {clock now : Int} {id k k' p : TimerId} {t t' : TimerTask τ} {task : τ}

/-! ## The first entry -/

theorem begin_eq (h : b.begin = some (k, t)) : ∃ rest, b.timers.toList = (k, t) :: rest :=
  List.head?_eq_some_iff.mp h

/-- The other entries come after the first one. -/
theorem begin_lt (h : b.begin = some (k, t)) (hne : k ≠ k') (ht' : b.timers[k']? = some t') :
    compare k k' = .lt := by
  obtain ⟨rest, hlist⟩ := begin_eq h
  have hmem : (k', t') ∈ b.timers.toList := Std.TreeMap.mem_toList_iff_getElem?_eq_some.mpr ht'
  have hordered := Std.TreeMap.ordered_keys_toList (t := b.timers)
  rw [hlist] at hmem hordered
  rcases List.mem_cons.mp hmem with heq | hmem
  · cases heq
    exact absurd rfl hne
  · exact (List.pairwise_cons.mp hordered).1 _ hmem

theorem due_begin (h : b.due now = some (k, t)) : b.begin = some (k, t) := by
  rw [due] at h
  split at h
  · split at h
    · cases h
      assumption
    · cases h
  · cases h

theorem first_le_of_lt (h : compare k k' = .lt) : k.first ≤ k'.first := by
  rcases TimerId.compare_eq_lt.mp h with h | ⟨h, -⟩
  · exact Int.le_of_lt h
  · exact Int.le_of_eq h

/-- The sequence numbers in `m_timers` are below the one with which `handleTimeout` compares. -/
def Below (b : EventBase τ) : Prop :=
  ∀ (k : TimerId) t, b.timers[k]? = some t → k.second < 0x4000000000000000

/-- When nothing is due, all entries are for later times. -/
theorem due_none (hbelow : Below b) (h : b.due now = none) (ht : b.timers[k]? = some t) : now < k.first := by
  have hlater : ∀ {k t}, b.begin = some (k, t) → now < k.first := by
    intro k t hbegin
    have hge : ¬compare k ⟨now, 0x4000000000000000⟩ = .lt := by
      intro hlt
      have hsome : b.due now = some (k, t) := by
        rw [due, hbegin]
        exact if_pos hlt
      rw [hsome] at h
      cases h
    have hmem : (k, t) ∈ b.timers.toList := List.mem_of_mem_head? hbegin
    have hlt := hbelow k t (Std.TreeMap.mem_toList_iff_getElem?_eq_some.mp hmem)
    rw [TimerId.compare_eq_lt] at hge
    simp only at hge
    omega
  cases hbegin : b.begin with
  | none =>
    have hnil : b.timers.toList = [] := List.head?_eq_none_iff.mp hbegin
    have hmem : (k, t) ∈ b.timers.toList := Std.TreeMap.mem_toList_iff_getElem?_eq_some.mpr ht
    rw [hnil] at hmem
    cases hmem
  | some e =>
    by_cases hne : e.1 = k
    · exact hne ▸ hlater hbegin
    · exact Int.lt_of_lt_of_le (hlater hbegin) (first_le_of_lt (begin_lt hbegin hne ht))

/-! ## One round of the loop -/

/-- All intervals are positive. -/
def Forward (b : EventBase τ) : Prop :=
  ∀ (p : TimerId) tr, b.timerRepeats[p]? = some tr → 1 ≤ tr.interval

theorem Inv.expire_isSome (h : Inv b) (ht : b.timers[k]? = some t) :
    ∃ b' id task, b.expire clock k t = some (b', id, task) := by
  cases t with
  | user u => exact ⟨_, _, _, rfl⟩
  | repeatable p =>
    obtain ⟨tr, htr, -⟩ := h.closure ht
    rw [EventBase.expire, call, repeatableTimeout]
    simp only [htr]
    exact ⟨_, _, _, rfl⟩

theorem expire_owner (h : b.expire clock k t = some (b', id, task)) : id = owner k t := by
  cases t with
  | user u => exact (expire_user h).1
  | repeatable p =>
    obtain ⟨tr, tid, -, hid, -⟩ := expire_repeatable h
    exact hid

theorem Forward.expire (h : Forward b) (hexpire : b.expire clock k t = some (b', id, task)) : Forward b' := by
  intro p tr htr
  cases t with
  | user u =>
    obtain ⟨-, -, -, -, hnodes⟩ := expire_user hexpire
    rw [hnodes] at htr
    exact h p tr htr
  | repeatable q =>
    obtain ⟨tr', tid, htr', -, -, -, -, -, -, hnodes⟩ := expire_repeatable hexpire
    rw [hnodes] at htr
    rcases insert_some htr with ⟨-, rfl⟩ | ⟨-, htr⟩
    · exact h q tr' htr'
    · exact h p tr htr

/-- What is in `m_timers` after the first entry has expired comes after it. -/
theorem Inv.expire_later (h : Inv b) (hforward : Forward b) (hbegin : b.begin = some (k, t))
    (hexpire : b.expire clock k t = some (b', id, task)) (ht' : b'.timers[k']? = some t') :
    compare k k' = .lt := by
  cases t with
  | user u =>
    obtain ⟨-, -, -, htimers, -⟩ := expire_user hexpire
    rw [htimers] at ht'
    obtain ⟨hne, ht'⟩ := erase_some ht'
    exact begin_lt hbegin hne ht'
  | repeatable p =>
    obtain ⟨tr, tid, htr, -, -, hfirst, -, -, htimers, -⟩ := expire_repeatable hexpire
    rw [htimers] at ht'
    rcases insert_some ht' with ⟨rfl, -⟩ | ⟨-, ht'⟩
    · have ht : b.timers[k]? = some (.repeatable p) :=
        Std.TreeMap.mem_toList_iff_getElem?_eq_some.mp (List.mem_of_mem_head? hbegin)
      obtain ⟨tr', htr', hk⟩ := h.closure ht
      rw [htr] at htr'
      cases htr'
      obtain ⟨-, -, hat, -⟩ := h.node htr
      have hpos := hforward p tr htr
      refine TimerId.compare_eq_lt.mpr (.inl ?_)
      rw [hfirst, ← hk, hat]
      omega
    · obtain ⟨hne, ht'⟩ := erase_some ht'
      exact begin_lt hbegin hne ht'

/-- No two entries belong to the same timer. -/
theorem Inv.owner_inj (h : Inv b) (ht : b.timers[k]? = some t) (ht' : b.timers[k']? = some t')
    (heq : owner k t = owner k' t') : k = k' := by
  -- The key of a user's task is no node.
  have hapart : ∀ {i j q : TimerId} {u : τ}, b.timers[i]? = some (.user u) →
      b.timers[j]? = some (.repeatable q) → i ≠ q := by
    rintro i j q u hi hj rfl
    obtain ⟨tr, htr, -⟩ := h.closure hj
    exact h.apart hi htr rfl
  cases t with
  | user u =>
    cases t' with
    | user u' => exact heq
    | repeatable p' => exact absurd heq (hapart ht ht')
  | repeatable p =>
    cases t' with
    | user u' => exact absurd heq.symm (hapart ht' ht)
    | repeatable p' =>
      cases (show p = p' from heq)
      obtain ⟨tr, htr, hk⟩ := h.closure ht
      obtain ⟨tr', htr', hk'⟩ := h.closure ht'
      rw [htr] at htr'
      cases htr'
      exact hk.symm.trans hk'

/-! ## What is owed -/

/-- The deadlines by `now` of all timers in `m_timers`, each with a weight. -/
def total (w : TimerTask τ → Nat) (now : Int) (b : EventBase τ) : Nat :=
  (b.timers.toList.map fun e => w e.2 * (registered b (owner e.1 e.2)).elim 0 (Timer.owed now)).sum

theorem nodup_toList {V : Type} {m : Std.TreeMap TimerId V} : m.toList.Nodup := by
  refine Std.TreeMap.ordered_keys_toList.imp fun hlt heq => ?_
  rw [heq, Std.ReflOrd.compare_self] at hlt
  cases hlt

theorem toList_erase_perm {V : Type} {m : Std.TreeMap TimerId V} {v : V} (h : m[k]? = some v) :
    m.toList.Perm ((k, v) :: (m.erase k).toList) := by
  have hnot : (k, v) ∉ (m.erase k).toList := by
    intro hmem
    exact (erase_some (Std.TreeMap.mem_toList_iff_getElem?_eq_some.mp hmem)).1 rfl
  refine (List.perm_ext_iff_of_nodup nodup_toList (List.nodup_cons.mpr ⟨hnot, nodup_toList⟩)).mpr ?_
  rintro ⟨i, x⟩
  rw [List.mem_cons, Std.TreeMap.mem_toList_iff_getElem?_eq_some, Std.TreeMap.mem_toList_iff_getElem?_eq_some,
    TimerId.getElem?_erase]
  split
  · rename_i heq
    subst heq
    rw [h]
    simp [eq_comm]
  · rename_i hne
    simp [Ne.symm hne]

theorem toList_insert_perm {V : Type} {m : Std.TreeMap TimerId V} {v : V} (h : m[k]? = none) :
    (m.insert k v).toList.Perm ((k, v) :: m.toList) := by
  have hk : (m.insert k v)[k]? = some v := by rw [TimerId.getElem?_insert, if_pos rfl]
  refine (toList_erase_perm hk).trans (.cons _ ?_)
  refine (List.perm_ext_iff_of_nodup nodup_toList nodup_toList).mpr ?_
  rintro ⟨i, x⟩
  rw [Std.TreeMap.mem_toList_iff_getElem?_eq_some, Std.TreeMap.mem_toList_iff_getElem?_eq_some,
    TimerId.getElem?_erase, TimerId.getElem?_insert]
  split
  · rename_i heq
    subst heq
    rw [h]
  · rfl

theorem Inv.period_nonneg (h : Inv b) (hforward : Forward b) {u : Timer τ} (hu : registered b id = some u) :
    0 ≤ u.period := by
  rcases h.registered_some hu with ⟨-, -, hzero⟩ | ⟨tr, htr, rfl, -⟩
  · exact Int.le_of_eq hzero.symm
  · exact Int.le_trans (by decide) (hforward id tr htr)

/-- A round takes one deadline off what is owed. -/
theorem Inv.total_expire (w : TimerTask τ → Nat) (h : Inv b) (hforward : Forward b) (hdue : k.first ≤ now)
    (ht : b.timers[k]? = some t) (hexpire : b.expire clock k t = some (b', id, task)) :
    total w now b' + w t = total w now b := by
  obtain ⟨-, -, ⟨u, hu, hdeadline, -⟩, hregistered⟩ := h.expire ht hexpire
  obtain rfl := expire_owner hexpire
  have howed := Timer.owed_next (hdeadline ▸ hdue) (h.period_nonneg hforward hu)
  -- The other entries are owed what they were.
  have hrest : (b.timers.erase k).toList.map (fun e : TimerId × TimerTask τ =>
        w e.2 * (registered b' (owner e.1 e.2)).elim 0 (Timer.owed now)) =
      (b.timers.erase k).toList.map fun e =>
        w e.2 * (registered b (owner e.1 e.2)).elim 0 (Timer.owed now) := by
    refine List.map_congr_left fun e he => ?_
    obtain ⟨hne, he⟩ := erase_some (Std.TreeMap.mem_toList_iff_getElem?_eq_some.mp he)
    rw [hregistered, if_neg fun heq => hne (h.owner_inj ht he heq)]
  rw [total, total, ((toList_erase_perm ht).map _).sum_nat, List.map_cons, List.sum_cons, ← hrest]
  simp only [hu, Option.elim_some]
  cases t with
  | user u' =>
    obtain ⟨-, -, -, htimers, -⟩ := expire_user hexpire
    rw [owner, registered_user ht] at hu
    cases hu
    have hone : Timer.owed now ⟨k.first, 0, u'⟩ = 1 := howed.symm
    rw [htimers, hone, Nat.mul_one, Nat.add_comm]
  | repeatable p =>
    obtain ⟨tr, tid, htr, -, -, -, hsecond, -, htimers, -⟩ := expire_repeatable hexpire
    have hfresh : (b.timers.erase k)[tid]? = none := by
      rw [TimerId.getElem?_erase, h.timers_fresh (by omega), ite_self]
    have hnext : registered b' p = u.next :=
      (hregistered p).trans ((if_pos rfl).trans (congrArg (Option.bind · Timer.next) hu))
    rw [htimers, ((toList_insert_perm hfresh).map _).sum_nat, List.map_cons, List.sum_cons]
    simp only [owner, hnext, ← howed]
    rw [Nat.mul_add, Nat.mul_one, Nat.add_right_comm]

/-! ## The whole loop -/

/-- From `b`, the loop starts `starts` and ends in `b'`. -/
structure Fired (now : Int) (b : EventBase τ) (starts : List (Start τ)) (b' : EventBase τ) : Prop where
  inv : Inv b'
  linked : Linked b'
  registered_eq : ∀ i, registered b' i = (registered b i).bind (Timer.settled now)
  count : ∀ i, (starts.filter fun s => s.id = i).length = (registered b i).elim 0 (Timer.owed now)
  task : ∀ s ∈ starts, ∃ u, registered b s.id = some u ∧ u.deadline ≤ now ∧ u.task = s.task
  sorted : starts.Pairwise fun s s' => compare s.key s'.key = .lt
  later : ∀ s ∈ starts, ∃ (k : TimerId) (t : TimerTask τ), b.timers[k]? = some t ∧
    (k = s.key ∨ compare k s.key = .lt)
  kept : ∀ (k : TimerId) t, now < k.first → b.timers[k]? = some t → b'.timers[k]? = some t

/-- A registered timer has an entry at its deadline. -/
theorem Linked.entry (h : Linked b) (hinv : Inv b) {u : Timer τ} (hu : registered b id = some u) :
    ∃ (k : TimerId) (t : TimerTask τ), b.timers[k]? = some t ∧ owner k t = id ∧ k.first = u.deadline := by
  rcases hinv.registered_some hu with ⟨ht, hd, -⟩ | ⟨tr, htr, rfl, -⟩
  · exact ⟨id, _, ht, rfl, hd.symm⟩
  · exact ⟨tr.tid, _, h id tr htr, rfl, (hinv.node htr).2.2.1⟩

theorem Fired.nil (hinv : Inv b) (hlinked : Linked b) (hbelow : Below b) (hdue : b.due now = none) :
    Fired now b [] b := by
  have hfuture : ∀ {i u}, registered b i = some u → now < u.deadline := by
    intro i u hu
    obtain ⟨k, t, ht, -, hk⟩ := hlinked.entry hinv hu
    exact hk ▸ due_none hbelow hdue ht
  refine ⟨hinv, hlinked, fun i => ?_, fun i => ?_, nofun, .nil, nofun, fun _ _ _ ht => ht⟩
  · cases hu : registered b i with
    | none => rfl
    | some u => exact (Timer.settled_future (hfuture hu)).symm
  · cases hu : registered b i with
    | none => rfl
    | some u => exact (Timer.owed_future (hfuture hu)).symm

theorem Fired.cons {b₁ : EventBase τ} {starts : List (Start τ)} (hinv : Inv b) (hforward : Forward b)
    (hdue : b.due now = some (k, t)) (hexpire : b.expire clock k t = some (b₁, id, task))
    (h : Fired now b₁ starts b') : Fired now b (⟨k, id, task⟩ :: starts) b' := by
  obtain ⟨ht, hk⟩ := due_some hdue
  obtain ⟨-, -, ⟨u, hu, hdeadline, htask⟩, hregistered⟩ := hinv.expire ht hexpire
  have hperiod := hinv.period_nonneg hforward hu
  have hbefore : ∀ s ∈ starts, compare k s.key = .lt := by
    intro s hs
    obtain ⟨k₁, t₁, ht₁, hle⟩ := h.later s hs
    have hlt := hinv.expire_later hforward (due_begin hdue) hexpire ht₁
    rcases hle with rfl | hle
    · exact hlt
    · exact Std.TransCmp.lt_trans hlt hle
  constructor
  case inv => exact h.inv
  case linked => exact h.linked
  case registered_eq =>
    intro i
    rw [h.registered_eq, hregistered]
    split
    · rename_i heq
      subst heq
      rw [hu, Option.bind_some, Option.bind_some]
      exact Timer.settled_next (hdeadline ▸ hk) hperiod
    · rfl
  case count =>
    intro i
    rw [List.filter_cons]
    have hcount := h.count i
    rw [hregistered] at hcount
    split at hcount
    · rename_i heq
      subst heq
      rw [hu, Option.bind_some] at hcount
      rw [if_pos (by simp), List.length_cons, hcount, hu]
      exact Timer.owed_next (hdeadline ▸ hk) hperiod
    · rename_i hne
      rw [if_neg (by simp [hne]), hcount]
  case task =>
    intro s hs
    rcases List.mem_cons.mp hs with rfl | hs
    · exact ⟨u, hu, hdeadline ▸ hk, htask⟩
    · obtain ⟨v, hv, hvd, hvt⟩ := h.task s hs
      rw [hregistered] at hv
      split at hv
      · rename_i heq
        rw [← heq, hu, Option.bind_some, Timer.next] at hv
        split at hv
        · cases hv
        · cases hv
          exact ⟨u, heq ▸ hu, hdeadline ▸ hk, hvt⟩
      · exact ⟨v, hv, hvd, hvt⟩
  case sorted => exact .cons hbefore h.sorted
  case later =>
    intro s hs
    rcases List.mem_cons.mp hs with rfl | hs
    · exact ⟨k, t, ht, .inl rfl⟩
    · exact ⟨k, t, ht, .inr (hbefore s hs)⟩
  case kept =>
    intro k' t' hlater ht'
    have hne : k ≠ k' := by
      rintro rfl
      omega
    exact h.kept k' t' hlater (hinv.expire_keeps hexpire hne ht')

/-- How often `++m_timerNum` runs for an entry. -/
def draws : TimerTask τ → Nat
  | .user _ => 0
  | .repeatable _ => 1

theorem expire_timerNum (h : b.expire clock k t = some (b', id, task)) :
    b'.timerNum = b.timerNum + draws t := by
  cases t with
  | user u =>
    obtain ⟨-, -, hnum, -⟩ := expire_user h
    rw [hnum]
    exact (Int.add_zero _).symm
  | repeatable p =>
    obtain ⟨tr, tid, -, -, -, -, -, hnum, -⟩ := expire_repeatable h
    exact hnum

/-- An expiry puts at most one entry into `m_timers`, with the next sequence number. -/
theorem Below.expire (h : Below b) (hnext : draws t = 1 → b.timerNum + 1 < 0x4000000000000000)
    (hexpire : b.expire clock k t = some (b', id, task)) : Below b' := by
  intro k' t' ht'
  cases t with
  | user u =>
    obtain ⟨-, -, -, htimers, -⟩ := expire_user hexpire
    rw [htimers] at ht'
    exact h k' t' (erase_some ht').2
  | repeatable p =>
    obtain ⟨tr, tid, -, -, -, -, hsecond, -, htimers, -⟩ := expire_repeatable hexpire
    rw [htimers] at ht'
    rcases insert_some ht' with ⟨rfl, -⟩ | ⟨-, ht'⟩
    · exact hsecond ▸ hnext rfl
    · exact h k' t' (erase_some ht').2

/-- **The loop ends** when all that is owed has been started. -/
theorem timeoutLoop_fired {clock : Int → Int} {fuel : Nat} (hinv : Inv b) (hlinked : Linked b)
    (hforward : Forward b) (hbelow : Below b)
    (hdrawn : ∀ n, b.timerNum < n → n ≤ b.timerNum + total draws now b → n < 0x4000000000000000)
    (hfuel : total (fun _ => 1) now b < fuel) :
    ∃ starts b', timeoutLoop clock now fuel b = some (starts, b') ∧ Fired now b starts b' := by
  induction fuel generalizing b with
  | zero => cases hfuel
  | succ fuel ih =>
    rw [timeoutLoop]
    cases hdue : b.due now with
    | none => exact ⟨[], b, rfl, .nil hinv hlinked hbelow hdue⟩
    | some e =>
      obtain ⟨k, t⟩ := e
      obtain ⟨ht, hk⟩ := due_some hdue
      obtain ⟨b₁, id, task, hexpire⟩ : ∃ b₁ id task, b.expire (clock b.timerNum) k t = some (b₁, id, task) :=
        hinv.expire_isSome ht
      obtain ⟨hinv₁, -⟩ := hinv.expire ht hexpire
      have howed := hinv.total_expire (fun _ => 1) hforward hk ht hexpire
      have hleft := hinv.total_expire draws hforward hk ht hexpire
      have hnum := expire_timerNum hexpire
      have hbelow₁ : Below b₁ := hbelow.expire (fun hone => hdrawn _ (by omega) (by omega)) hexpire
      obtain ⟨starts, b', hloop, hfired⟩ := ih hinv₁ (hlinked.expire hinv ht hexpire)
        (hforward.expire hexpire) hbelow₁ (fun n hlt hle => hdrawn n (by omega) (by omega)) (by omega)
      refine ⟨⟨k, id, task⟩ :: starts, b', ?_, hfired.cons hinv hforward hdue hexpire⟩
      simp only [hexpire, hloop, Option.map_some]

/-- More fuel changes nothing. -/
theorem timeoutLoop_mono {clock : Int → Int} {fuel fuel' : Nat} {r : List (Start τ) × EventBase τ}
    (h : timeoutLoop clock now fuel b = some r) (hle : fuel ≤ fuel') :
    timeoutLoop clock now fuel' b = some r := by
  induction fuel generalizing b fuel' r with
  | zero => cases h
  | succ fuel ih =>
    obtain ⟨fuel', rfl⟩ := Nat.exists_eq_add_of_le' hle
    rw [← Nat.add_assoc, timeoutLoop]
    rw [timeoutLoop] at h
    cases hdue : b.due now with
    | none =>
      rw [hdue] at h
      exact h
    | some e =>
      rw [hdue] at h
      cases hexpire : b.expire (clock b.timerNum) e.1 e.2 with
      | none =>
        simp only [hexpire] at h
        cases h
      | some x =>
        simp only [hexpire] at h ⊢
        obtain ⟨r', hr', rfl⟩ := Option.map_eq_some_iff.mp h
        rw [ih hr' (Nat.le_add_left fuel fuel')]
        rfl

/-! ## What `handleTimeout` does -/

/-- What a `handleTimeout` that samples `now` is for: it starts `starts`, and leaves the loop as `b'`. -/
structure FiresDue (now : Int) (b : EventBase τ) (starts : List (Start τ)) (b' : EventBase τ) : Prop where
  /-- A one-shot timer that is due is started once. -/
  oneShot : ∀ (k : TimerId) u, b.timers[k]? = some (.user u) → k.first ≤ now →
    (starts.filter fun s => s.id = k).length = 1
  /-- A repeating timer that is due is started once for each of its deadlines up to `now`. -/
  repeating : ∀ (p : TimerId) tr, b.timerRepeats[p]? = some tr → tr.at ≤ now →
    ((starts.filter fun s => s.id = p).length : Int) = (now - tr.at) / tr.interval + 1
  /-- No other timer is started. -/
  due : ∀ s ∈ starts, (b.timers[s.id]? = some (.user s.task) ∧ s.id.first ≤ now) ∨
    ∃ tr, b.timerRepeats[s.id]? = some tr ∧ tr.task = s.task ∧ tr.at ≤ now
  sorted : starts.Pairwise fun s s' => compare s.key s'.key = .lt
  /-- The entries for later times stay. -/
  kept : ∀ (k : TimerId) t, now < k.first → b.timers[k]? = some t → b'.timers[k]? = some t
  /-- A repeating timer that was due has one entry, for its first deadline after `now`. -/
  next : ∀ (p : TimerId) tr, b.timerRepeats[p]? = some tr → tr.at ≤ now →
    ∃ k : TimerId, (∀ k' : TimerId, b'.timers[k']? = some (.repeatable p) ↔ k' = k) ∧
      IsLeast {d | now < d ∧ ∃ n : Nat, d = tr.at + n * tr.interval} k.first
  /-- There are no other entries. -/
  entry : ∀ (k : TimerId) t, b'.timers[k]? = some t → (now < k.first ∧ b.timers[k]? = some t) ∨
    ∃ p tr, t = .repeatable p ∧ b.timerRepeats[p]? = some tr ∧ tr.at ≤ now

/-- An entry registers its owner for its time. -/
theorem Inv.registered_owner (h : Inv b) (ht : b.timers[k]? = some t) :
    ∃ u, registered b (owner k t) = some u ∧ u.deadline = k.first ∧
      (u.period ≠ 0 → t = .repeatable (owner k t)) := by
  cases t with
  | user u => exact ⟨_, registered_user ht, rfl, fun hne => absurd rfl hne⟩
  | repeatable p =>
    obtain ⟨tr, htr, hk⟩ := h.closure ht
    exact ⟨_, h.registered_node htr, by rw [← hk, (h.node htr).2.2.1], fun _ => rfl⟩

theorem Fired.firesDue {starts : List (Start τ)} (hinv : Inv b) (hlinked : Linked b) (hforward : Forward b)
    (h : Fired now b starts b') : FiresDue now b starts b' := by
  constructor
  case oneShot =>
    intro k u ht hk
    rw [h.count, registered_user ht]
    simp only [Option.elim_some, Timer.owed, if_neg (Int.not_lt.mpr hk), if_true]
  case repeating =>
    intro p tr htr hat
    have hpos := hforward p tr htr
    have hq : 0 ≤ (now - tr.at) / tr.interval := Int.ediv_nonneg (by omega) (by omega)
    rw [h.count, hinv.registered_node htr]
    simp only [Option.elim_some, Timer.owed, if_neg (Int.not_lt.mpr hat), if_neg (hinv.node htr).2.2.2]
    omega
  case due =>
    intro s hs
    obtain ⟨u, hu, hdeadline, htask⟩ := h.task s hs
    rcases hinv.registered_some hu with ⟨ht, hd, -⟩ | ⟨tr, htr, rfl, -⟩
    · exact .inl ⟨htask ▸ ht, hd ▸ hdeadline⟩
    · exact .inr ⟨tr, htr, htask, hdeadline⟩
  case sorted => exact h.sorted
  case kept => exact h.kept
  case next =>
    intro p tr htr hat
    have hpos : 0 < tr.interval := hforward p tr htr
    have hreg := h.registered_eq p
    rw [hinv.registered_node htr, Option.bind_some] at hreg
    have hne : (⟨tr.at, tr.interval, tr.task⟩ : Timer τ).period ≠ 0 := (hinv.node htr).2.2.2
    obtain ⟨v, hv⟩ := Option.isSome_iff_exists.mp ((Timer.settled_isSome_iff hat).mpr hne)
    have hperiod : v.period = tr.interval := Timer.settled_period hv
    have hleast := Timer.settled_deadline hat hpos hv
    rw [hv] at hreg
    rcases h.inv.registered_some hreg with ⟨-, -, hzero⟩ | ⟨tr', htr', rfl, -⟩
    · omega
    · refine ⟨tr'.tid, (h.linked.tableOk h.inv).closure_iff htr', ?_⟩
      rw [(h.inv.node htr').2.2.1]
      exact hleast
  case entry =>
    intro k t ht
    obtain ⟨v, hv, hvk, hclosure⟩ := h.inv.registered_owner ht
    rw [h.registered_eq] at hv
    obtain ⟨u, hu, hsettled⟩ := Option.bind_eq_some_iff.mp hv
    by_cases hfuture : now < u.deadline
    · -- It is the entry that the timer had.
      obtain ⟨k₀, t₀, ht₀, howner, hk₀⟩ := hlinked.entry hinv hu
      have ht₀' := h.kept k₀ t₀ (hk₀ ▸ hfuture) ht₀
      obtain rfl := h.inv.owner_inj ht₀' ht howner
      rw [ht] at ht₀'
      cases ht₀'
      exact .inl ⟨hk₀ ▸ hfuture, ht₀⟩
    · have hdue : u.deadline ≤ now := Int.not_lt.mp hfuture
      have hperiod := (Timer.settled_isSome_iff hdue).mp (Option.isSome_iff_exists.mpr ⟨v, hsettled⟩)
      have hrep := hclosure (Timer.settled_period hsettled ▸ hperiod)
      rcases hinv.registered_some hu with ⟨-, -, hzero⟩ | ⟨tr, htr, rfl, -⟩
      · exact absurd hzero hperiod
      · exact .inr ⟨owner k t, tr, hrep, htr, hdue⟩

/-- **`handleTimeout` fires what is due.** From every table that keeps the timer invariant, with positive
intervals and with sequence numbers below 2^62, in the table and among those that the call draws,
`handleTimeout` with tasks that do not touch timers ends and does what it is for. -/
theorem handleTimeout_fires (hinv : Inv b) (hlinked : Linked b)
    (hinterval : ∀ (p : TimerId) tr, b.timerRepeats[p]? = some tr → 1 ≤ tr.interval)
    (hbelow : ∀ (k : TimerId) t, b.timers[k]? = some t → k.second < 0x4000000000000000)
    (hdrawn : ∀ n, b.timerNum < n → n ≤ b.timerNum + total draws now b → n < 0x4000000000000000)
    (clock : Int → Int) :
    ∃ n starts b', (∀ fuel ≥ n, b.handleTimeout clock now fuel = some (starts, b')) ∧
      FiresDue now b starts b' := by
  obtain ⟨n, hfuel⟩ : ∃ n, total (fun _ : TimerTask τ => 1) now b < n := ⟨_, Nat.lt_succ_self _⟩
  obtain ⟨starts, b₁, hloop, hfired⟩ :
      ∃ starts b', timeoutLoop clock now n b = some (starts, b') ∧ Fired now b starts b' :=
    timeoutLoop_fired hinv hlinked hinterval hbelow hdrawn hfuel
  refine ⟨n, starts, b₁.refreshNearest (clock b₁.timerNum), fun fuel hle => ?_, ?_⟩
  · rw [handleTimeout, timeoutLoop_mono hloop hle]
    rfl
  · -- `refreshNearest` leaves both maps alone.
    obtain ⟨honce, hrepeating, hdue, hsorted, hkept, hnext, hentry⟩ := hfired.firesDue hinv hlinked hinterval
    constructor
    case oneShot => exact honce
    case repeating => exact hrepeating
    case due => exact hdue
    case sorted => exact hsorted
    all_goals rw [refreshNearest_timers]
    case kept => exact hkept
    case next => exact hnext
    case entry => exact hentry

/-- A timer for 5, 8, 11 and so on. -/
def everyThree : EventBase Nat := (({} : EventBase Nat).runAt 0 5 7 3).1

/-- At 9 it has been due twice. -/
theorem handleTimeout_fires_everyThree : ∃ n starts b',
    (∀ fuel ≥ n, everyThree.handleTimeout (fun _ => 9) 9 fuel = some (starts, b')) ∧
      FiresDue 9 everyThree starts b' := by
  have hrun : ({} : EventBase Nat).runAt 0 5 7 3 = (everyThree, ⟨-5, 1⟩) := rfl
  have hinv : Inv everyThree := (Inv.init.runAt hrun rfl).1
  have hempty : Linked ({} : EventBase Nat) := by
    intro p tr htr
    simp at htr
  have hlinked : Linked everyThree := hempty.runAt .init rfl hrun
  have hbelow : ∀ (k : TimerId) t, everyThree.timers[k]? = some t → k.second < 0x4000000000000000 :=
    fun k t ht => Int.lt_of_le_of_lt (hinv.key_le ht) (by decide)
  have hdrawn : ∀ n, everyThree.timerNum < n → n ≤ everyThree.timerNum + total draws 9 everyThree →
      n < 0x4000000000000000 := fun n _ hle => Int.lt_of_le_of_lt hle (by decide)
  refine handleTimeout_fires hinv hlinked (fun p tr htr => ?_) hbelow hdrawn fun _ => 9
  have htr : ((∅ : Std.TreeMap TimerId (TimerRepeatable Nat)).insert ⟨-5, 1⟩ ⟨5, 3, ⟨5, 2⟩, 7⟩)[p]? =
    some tr := htr
  rcases insert_some htr with ⟨-, rfl⟩ | ⟨-, htr⟩
  · decide
  · simp at htr

end NetLibrary.EventBase
