import NetLibrary.Model.Poller

/-!
# What a poller knows of a channel

`Knows` holds of every poller: the registrations are of channels that exist, and a batch of events
names each channel once. `Owns` relates a channel to its registration, and `Gone` says that no call
of `loop_once` can dispatch an event to it. `gone_close` is why `Channel::close` is enough for that.
-/

namespace NetLibrary.PollerEpoll

variable {p p' : PollerEpoll} {ch other : Channel} {n k : Nat} {evs : List Active} {id x : Nat}

/-- The channel that the entry `k` of a batch names. -/
def ptrAt (evs : List Active) (k : Nat) : Option Nat := evs[k]?.bind Active.ptr

/-! ## Batches -/

theorem ptrAt_modify : ptrAt (evs.modify n ({ · with ptr := none })) k =
    if n = k then none else ptrAt evs k := by
  rw [ptrAt, List.getElem?_modify, ptrAt]
  by_cases hnk : n = k
  · simp [hnk]
  · simp [hnk]

/-- `clearActive` changes nothing but takes a channel out. -/
theorem ptrAt_clearActive (h : ptrAt (clearActive id evs n) k = some x) : ptrAt evs k = some x := by
  induction n with
  | zero =>
    rw [clearActive] at h
    split at h
    · rw [ptrAt_modify] at h
      split at h
      · cases h
      · exact h
    · exact h
  | succ n ih =>
    rw [clearActive] at h
    split at h
    · rw [ptrAt_modify] at h
      split at h
      · cases h
      · exact h
    · exact ih h

/-- No two entries of a batch name the same channel. -/
def Uniq (evs : List Active) : Prop :=
  ∀ ⦃i j x⦄, ptrAt evs i = some x → ptrAt evs j = some x → i = j

/-- One entry of the channel is all there is to take out. -/
theorem Uniq.clearActive (h : Uniq evs) (hk : k ≤ n) : ptrAt (clearActive id evs n) k ≠ some id := by
  intro hptr
  have hold : ptrAt evs k = some id := ptrAt_clearActive hptr
  induction n with
  | zero =>
    obtain rfl := Nat.le_zero.mp hk
    rw [PollerEpoll.clearActive, if_pos (show evs[0]?.bind Active.ptr = some id from hold),
      ptrAt_modify, if_pos rfl] at hptr
    cases hptr
  | succ n ih =>
    rw [PollerEpoll.clearActive] at hptr
    split at hptr
    · rename_i hn
      rw [ptrAt_modify, if_pos (h hn hold)] at hptr
      cases hptr
    · rename_i hn
      refine ih (Nat.le_of_lt_succ (Nat.lt_of_le_of_ne hk ?_)) hptr
      rintro rfl
      exact hn hold

theorem uniq_of_nodup (h : (evs.map Active.ptr).Nodup) : Uniq evs := by
  intro i j x hi hj
  obtain ⟨a, ha, hax⟩ := Option.bind_eq_some_iff.mp hi
  obtain ⟨b, hb, hbx⟩ := Option.bind_eq_some_iff.mp hj
  have hmap : (evs.map Active.ptr)[i]? = (evs.map Active.ptr)[j]? := by
    simp [ha, hb, hax, hbx]
  have hlt : i < (evs.map Active.ptr).length := by
    rw [List.length_map]
    exact (List.getElem?_eq_some_iff.mp ha).1
  exact (List.getElem?_inj hlt h).mp hmap

/-! ## The poller and its channels -/

/-- The channels are those that have drawn a number up to `n`. -/
structure Knows (p : PollerEpoll) (n : Nat) : Prop where
  ptr : ∀ i ∈ p.interest, i.ptr ≤ n
  uniq : Uniq p.activeEvents

/-- A registration of the channel is one of its descriptor. -/
def Owns (p : PollerEpoll) (ch : Channel) : Prop := ∀ i ∈ p.interest, i.ptr = ch.id → i.fd = ch.fd

/-- The poller has no trace of the channel but in the events that `loop_once` is done with. -/
structure Gone (p : PollerEpoll) (id : Nat) : Prop where
  live : id ∉ p.liveChannels
  interest : ∀ i ∈ p.interest, i.ptr ≠ id
  active : ∀ {k : Nat}, (k : Int) < p.lastActive → ptrAt p.activeEvents k ≠ some id

/-- `Channel::close` up to its call of `handleRead`. -/
def detach (p : PollerEpoll) (ch : Channel) : PollerEpoll := (p.removeChannel ch).closeFd ch.fd

theorem knows_init : Knows {} n := ⟨nofun, nofun⟩

theorem mem_detach_interest {i : Interest} :
    i ∈ (p.detach ch).interest ↔ i ∈ p.interest ∧ i.fd ≠ ch.fd := by
  simp [detach, closeFd, removeChannel]

theorem ptrAt_detach (h : ptrAt (p.detach ch).activeEvents k = some x) :
    ptrAt p.activeEvents k = some x := by
  simp only [detach, closeFd, removeChannel] at h
  split at h
  · exact ptrAt_clearActive h
  · exact h

theorem Knows.detach (h : Knows p n) : Knows (p.detach ch) n := by
  refine ⟨fun i hi => h.ptr i (mem_detach_interest.mp hi).1, ?_⟩
  exact fun _ _ _ hi hj => h.uniq (ptrAt_detach hi) (ptrAt_detach hj)

theorem Owns.detach (h : Owns p ch) : Owns (p.detach other) ch :=
  fun i hi => h i (mem_detach_interest.mp hi).1

theorem Gone.detach (h : Gone p id) : Gone (p.detach other) id := by
  refine ⟨fun hmem => h.live (Finset.mem_of_mem_erase hmem), ?_, ?_⟩
  · exact fun i hi => h.interest i (mem_detach_interest.mp hi).1
  · exact fun hk hptr => h.active hk (ptrAt_detach hptr)

/-- A channel that owns its registrations is gone once it is closed. -/
theorem gone_detach (h : Knows p n) (howns : Owns p ch) : Gone (p.detach ch) ch.id := by
  refine ⟨Finset.notMem_erase _ _, ?_, ?_⟩
  · intro i hi hid
    obtain ⟨hmem, hfd⟩ := mem_detach_interest.mp hi
    exact hfd (howns i hmem hid)
  · intro k hk
    have hk' : (k : Int) < p.lastActive := hk
    simp only [PollerEpoll.detach, closeFd, removeChannel]
    rw [if_pos (by omega)]
    exact h.uniq.clearActive (by omega)

theorem Knows.addChannel (h : Knows p n) (hid : other.id = n + 1) :
    Knows (p.addChannel other) (n + 1) := by
  refine ⟨fun i hi => ?_, h.uniq⟩
  rcases List.mem_cons.mp hi with rfl | hi
  · exact Nat.le_of_eq hid
  · exact Nat.le_succ_of_le (h.ptr i hi)

theorem Owns.addChannel (h : Owns p ch) (hid : other.id ≠ ch.id) : Owns (p.addChannel other) ch := by
  intro i hi hptr
  rcases List.mem_cons.mp hi with rfl | hi
  · exact absurd hptr hid
  · exact h i hi hptr

theorem Gone.addChannel (h : Gone p id) (hid : other.id ≠ id) : Gone (p.addChannel other) id := by
  refine ⟨fun hmem => ?_, fun i hi => ?_, h.active⟩
  · rcases Finset.mem_insert.mp hmem with heq | hmem
    · exact hid heq.symm
    · exact h.live hmem
  · rcases List.mem_cons.mp hi with rfl | hi
    · exact hid
    · exact h.interest i hi

/-- The registrations of a channel that has not been added are its own. -/
theorem owns_addChannel (h : Knows p n) (hid : ch.id = n + 1) : Owns (p.addChannel ch) ch := by
  intro i hi hptr
  rcases List.mem_cons.mp hi with rfl | hi
  · rfl
  · have hle : i.ptr ≤ n := h.ptr i hi
    omega

theorem Knows.updateChannel (h : Knows p n) (hid : ch.id ≤ n) : Knows (p.updateChannel ch) n := by
  refine ⟨fun i hi => ?_, h.uniq⟩
  obtain ⟨j, hj, rfl⟩ := List.mem_map.mp hi
  split
  · exact hid
  · exact h.ptr j hj

theorem Owns.updateChannel (h : Owns p ch) (hid : other.id = ch.id) (hfd : other.fd = ch.fd) :
    Owns (p.updateChannel other) other := by
  intro i hi hptr
  obtain ⟨j, hj, rfl⟩ := List.mem_map.mp hi
  split at hptr
  · rename_i hj
    simp [hj]
  · rename_i hne
    rw [if_neg hne, hfd]
    exact h j hj (hptr.trans hid)

theorem Knows.wait (h : Knows p n) (hready : p.Ready evs) : Knows (p.wait evs) n :=
  ⟨h.ptr, uniq_of_nodup hready.nodup⟩

theorem Gone.wait (h : Gone p id) (hready : p.Ready evs) : Gone (p.wait evs) id := by
  refine ⟨h.live, h.interest, fun _ hptr => ?_⟩
  obtain ⟨e, he, hid⟩ := Option.bind_eq_some_iff.mp hptr
  obtain ⟨i, hi, heq, -⟩ := hready.registered e (List.mem_of_getElem? he)
  rw [hid] at heq
  exact h.interest i hi (Option.some.inj heq).symm

theorem Knows.next (h : Knows p n) : Knows p.next.1 n := ⟨h.ptr, h.uniq⟩

theorem Gone.next (h : Gone p id) : Gone p.next.1 id := by
  refine ⟨h.live, h.interest, fun hk => h.active ?_⟩
  exact Int.lt_trans hk (Int.sub_lt_self _ Int.one_pos)

/-- No event that is still to be dispatched is of a channel that is gone. -/
theorem Gone.next_ptr {e : Active} (h : Gone p id) (hnext : p.next.2 = some e) :
    e.ptr ≠ some id := by
  intro hptr
  rw [PollerEpoll.next] at hnext
  simp only at hnext
  split at hnext
  · refine h.active (k := (p.lastActive - 1).toNat) (by omega) ?_
    rw [ptrAt, hnext]
    exact hptr
  · cases hnext

end NetLibrary.PollerEpoll
