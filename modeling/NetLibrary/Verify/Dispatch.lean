import NetLibrary.Theory.Run
import NetLibrary.Model.Dispatch
import NetLibrary.Verify.Poller

/-!
# Dispatch

The index of the loop is `m_lastActive`, from which `removeChannel` scans down. So an entry that is not
yet dispatched, or that is being dispatched, is cleared when its channel is removed, and every other
entry is dispatched once (`dispatch`).
-/

namespace NetLibrary.PollerEpoll
open LTS

variable {p p' : PollerEpoll} {ch : Channel} {n k : Nat} {evs : List Active} {id x : Nat} {e : Active}

/-! ## What is cleared -/

/-- An entry stays as it is, or it names the channel and loses its pointer. -/
theorem getElem?_clearActive : (clearActive id evs n)[k]? = evs[k]? ∨ ∃ e, evs[k]? = some e ∧
    e.ptr = some id ∧ (clearActive id evs n)[k]? = some { e with ptr := none } := by
  have hmodify : ∀ m, (evs[m]?.bind Active.ptr) = some id →
      (evs.modify m ({ · with ptr := none }))[k]? = evs[k]? ∨ ∃ e, evs[k]? = some e ∧
        e.ptr = some id ∧ (evs.modify m ({ · with ptr := none }))[k]? = some { e with ptr := none } := by
    intro m hm
    rw [List.getElem?_modify]
    by_cases hmk : m = k
    · subst hmk
      obtain ⟨e, he, hptr⟩ := Option.bind_eq_some_iff.mp hm
      exact .inr ⟨e, he, hptr, by simp [he]⟩
    · exact .inl (by simp [hmk])
  induction n with
  | zero =>
    rw [clearActive]
    split
    · exact hmodify 0 ‹_›
    · exact .inl rfl
  | succ n ih =>
    rw [clearActive]
    split
    · exact hmodify (n + 1) ‹_›
    · exact ih

theorem length_clearActive : (clearActive id evs n).length = evs.length := by
  induction n with
  | zero =>
    rw [clearActive]
    split
    · exact List.length_modify ..
    · rfl
  | succ n ih =>
    rw [clearActive]
    split
    · exact List.length_modify ..
    · exact ih

theorem getElem?_removeChannel : (p.removeChannel ch).activeEvents[k]? = p.activeEvents[k]? ∨
    ∃ e, p.activeEvents[k]? = some e ∧ e.ptr = some ch.id ∧
      (p.removeChannel ch).activeEvents[k]? = some { e with ptr := none } := by
  simp only [removeChannel]
  split
  · exact getElem?_clearActive
  · exact .inl rfl

theorem length_removeChannel :
    (p.removeChannel ch).activeEvents.length = p.activeEvents.length := by
  simp only [removeChannel]
  split
  · exact length_clearActive
  · rfl

/-- The other channels are not cleared. -/
theorem ptrAt_removeChannel_of_ne (h : ptrAt p.activeEvents k = some x) (hx : x ≠ ch.id) :
    ptrAt (p.removeChannel ch).activeEvents k = some x := by
  rcases getElem?_removeChannel (p := p) (k := k) with heq | ⟨e, he, hptr, -⟩
  · rw [ptrAt, heq]
    exact h
  · rw [ptrAt, he, Option.bind_some, hptr] at h
    exact absurd (Option.some.inj h).symm hx

theorem ptrAt_removeChannel (h : ptrAt (p.removeChannel ch).activeEvents k = some x) :
    ptrAt p.activeEvents k = some x := by
  rcases getElem?_removeChannel (p := p) (k := k) with heq | ⟨e, -, -, heq⟩
  · rwa [ptrAt, heq] at h
  · rw [ptrAt, heq] at h
    cases h

/-- The entries that are not dispatched and the one that is being dispatched are cleared. -/
theorem Uniq.removeChannel (h : Uniq p.activeEvents) (hk : (k : Int) ≤ p.lastActive) :
    ptrAt (p.removeChannel ch).activeEvents k ≠ some ch.id := by
  simp only [PollerEpoll.removeChannel]
  rw [if_pos (by omega)]
  exact h.clearActive (by omega)

theorem next_some (h : p.next = (p', some e)) : ∃ i : Nat, p.lastActive = i + 1 ∧
    p.activeEvents[i]? = some e ∧ p' = { p with lastActive := i } := by
  rw [next, Prod.mk.injEq] at h
  obtain ⟨rfl, hget⟩ := h
  split at hget
  · refine ⟨(p.lastActive - 1).toNat, by omega, hget, ?_⟩
    rw [Int.toNat_of_nonneg ‹_›]
  · cases hget

theorem next_none (h : p.next = (p', none)) (hlast : p.lastActive ≤ p.activeEvents.length) :
    p.lastActive ≤ 0 ∧ p' = { p with lastActive := p.lastActive - 1 } := by
  rw [next, Prod.mk.injEq] at h
  obtain ⟨rfl, hget⟩ := h
  refine ⟨?_, rfl⟩
  split at hget
  · have hlen := List.getElem?_eq_none_iff.mp hget
    omega
  · omega

namespace Dispatch

variable {s s' : State} {es a b : List Event} {ev : Event} {h : Handler}

/-- The handlers of a channel that have been called, in this order. -/
def calls (id : Nat) (es : List Event) : List Handler :=
  es.filterMap fun
    | .call i h => if i = id then some h else none
    | _ => none

/-- `removeChannel` has been called for the channel. -/
def Removed (es : List Event) (id : Nat) : Prop := ∃ ch : Channel, .removeChannel ch ∈ es ∧ ch.id = id

@[simp] theorem calls_append : calls id (es ++ [ev]) = calls id es ++ calls id [ev] :=
  List.filterMap_append

theorem removed_snoc : Removed (es ++ [ev]) id ↔
    Removed es id ∨ ∃ ch : Channel, ev = .removeChannel ch ∧ ch.id = id := by
  constructor
  · rintro ⟨ch, hch, rfl⟩
    rcases List.mem_append.mp hch with hch | hch
    · exact .inl ⟨ch, hch, rfl⟩
    · exact .inr ⟨ch, (List.mem_singleton.mp hch).symm, rfl⟩
  · rintro (⟨ch, hch, rfl⟩ | ⟨ch, rfl, rfl⟩)
    · exact ⟨ch, List.mem_append_left _ hch, rfl⟩
    · exact ⟨ch, List.mem_append_right _ (List.mem_singleton_self _), rfl⟩

theorem removed_snoc_of_ne (h : ∀ ch, ev ≠ .removeChannel ch) :
    Removed (es ++ [ev]) id ↔ Removed es id := by
  rw [removed_snoc, or_iff_left]
  rintro ⟨ch, heq, -⟩
  exact h ch heq

/-- What relates the entries to what `epoll_wait` returned, and to the calls. The entries from
`m_lastActive` on are dispatched. -/
structure Inv (evs : List Active) (es : List Event) (s : State) : Prop where
  length : s.poller.activeEvents.length = evs.length
  last : s.poller.lastActive ≤ evs.length
  entry : ∀ {k : Nat} {e}, s.poller.activeEvents[k]? = some e → ∃ e₀, evs[k]? = some e₀ ∧
    e.events = e₀.events ∧ (e.ptr ≠ none → e.ptr = e₀.ptr)
  kept : ∀ {k id : Nat}, ptrAt evs k = some id → ¬Removed es id →
    ptrAt s.poller.activeEvents k = some id
  gone : ∀ {k id : Nat}, Removed es id → (k : Int) < s.poller.lastActive →
    ptrAt s.poller.activeEvents k ≠ some id
  pending : ∀ {k id : Nat}, ptrAt evs k = some id → (k : Int) < s.poller.lastActive → calls id es = []
  done : ∀ {k id : Nat} {e}, evs[k]? = some e → e.ptr = some id → s.poller.lastActive ≤ k →
    ¬Removed es id → calls id es = (handler e.events).toList
  once : ∀ {id : Nat}, (calls id es).length ≤ 1

theorem Inv.init : Inv evs [] ⟨p.wait evs, .test⟩ where
  length := rfl
  last := Int.le_refl _
  entry he := ⟨_, he, rfl, fun _ => rfl⟩
  kept hptr _ := hptr
  gone hremoved _ := by
    obtain ⟨_, hmem, -⟩ := hremoved
    cases hmem
  pending _ _ := rfl
  done he _ hle _ := by
    have hlt := (List.getElem?_eq_some_iff.mp he).1
    have hle : (evs.length : Int) ≤ _ := hle
    omega
  once := Nat.zero_le _

theorem Inv.ptr (h : Inv evs es s) (hptr : ptrAt s.poller.activeEvents k = some id) :
    ptrAt evs k = some id := by
  obtain ⟨e, he, hid⟩ := Option.bind_eq_some_iff.mp hptr
  obtain ⟨e₀, he₀, -, heq⟩ := h.entry he
  rw [ptrAt, he₀, Option.bind_some, ← heq (by simp [hid]), hid]

/-- A step that leaves the entries alone and dispatches none. -/
theorem Inv.same (h : Inv evs es s) (hactive : s'.poller.activeEvents = s.poller.activeEvents)
    (hlast : s'.poller.lastActive ≤ s.poller.lastActive)
    (hdone : ∀ k : Nat, s'.poller.lastActive ≤ k → s.poller.lastActive ≤ k)
    (hcalls : ∀ id, calls id [ev] = []) (hremove : ∀ ch, ev ≠ .removeChannel ch) :
    Inv evs (es ++ [ev]) s' := by
  have hremoved : ∀ {id}, Removed (es ++ [ev]) id ↔ Removed es id := removed_snoc_of_ne hremove
  constructor
  case length => rw [hactive, h.length]
  case last => exact Int.le_trans hlast h.last
  case entry => rw [hactive]; exact h.entry
  case kept => rw [hactive]; exact fun hptr hid => h.kept hptr (hid ∘ hremoved.mpr)
  case gone =>
    rw [hactive]
    exact fun hid hk => h.gone (hremoved.mp hid) (Int.lt_of_lt_of_le hk hlast)
  case pending =>
    intro k id hptr hk
    rw [calls_append, hcalls, List.append_nil]
    exact h.pending hptr (Int.lt_of_lt_of_le hk hlast)
  case done =>
    intro k id e he hid hle hrem
    rw [calls_append, hcalls, List.append_nil]
    exact h.done he hid (hdone k hle) (hrem ∘ hremoved.mpr)
  case once =>
    intro id
    rw [calls_append, hcalls, List.append_nil]
    exact h.once

/-- The entry before the index is dispatched. -/
theorem Inv.advance {i : Nat} (h : Inv evs es s) (huniq : Uniq evs)
    (hi : s.poller.lastActive = i + 1) (he : s.poller.activeEvents[i]? = some e)
    (hactive : s'.poller.activeEvents = s.poller.activeEvents) (hlast : s'.poller.lastActive = i)
    (hcalls : ∀ id, calls id [ev] = if e.ptr = some id then (handler e.events).toList else [])
    (hremove : ∀ ch, ev ≠ .removeChannel ch) : Inv evs (es ++ [ev]) s' := by
  have hremoved : ∀ {id}, Removed (es ++ [ev]) id ↔ Removed es id := removed_snoc_of_ne hremove
  obtain ⟨e₀, he₀, hevents, -⟩ := h.entry he
  have hptr : ∀ {id}, e.ptr = some id → ptrAt evs i = some id := fun hid =>
    h.ptr (Option.bind_eq_some_iff.mpr ⟨e, he, hid⟩)
  constructor
  case length => rw [hactive, h.length]
  case last =>
    have := h.last
    omega
  case entry => rw [hactive]; exact h.entry
  case kept => rw [hactive]; exact fun hptr hid => h.kept hptr (hid ∘ hremoved.mpr)
  case gone =>
    intro k id hid hk
    rw [hactive]
    exact h.gone (hremoved.mp hid) (by omega)
  case pending =>
    intro k id hk hlt
    rw [calls_append, h.pending hk (by omega), hcalls, if_neg]
    · rfl
    · intro hid
      obtain rfl := huniq hk (hptr hid)
      omega
  case done =>
    intro k id e₁ he₁ hid hle hrem
    have hk : ptrAt evs k = some id := Option.bind_eq_some_iff.mpr ⟨e₁, he₁, hid⟩
    rw [calls_append, hcalls]
    by_cases hki : k = i
    · subst hki
      obtain rfl : e₀ = e₁ := Option.some.inj (he₀.symm.trans he₁)
      have hid' : e.ptr = some id := by
        have hkept := h.kept hk (hrem ∘ hremoved.mpr)
        rwa [ptrAt, he, Option.bind_some] at hkept
      rw [h.pending hk (by omega), if_pos hid', hevents]
      rfl
    · rw [h.done he₁ hid (by omega) (hrem ∘ hremoved.mpr), if_neg, List.append_nil]
      exact fun hid' => hki (huniq hk (hptr hid'))
  case once =>
    intro id
    rw [calls_append, hcalls]
    split
    · rw [h.pending (hptr ‹_›) (by omega)]
      exact Option.length_toList_le
    · rw [List.append_nil]
      exact h.once

theorem Inv.removeChannel (h : Inv evs es ⟨p, .handler⟩) (huniq : Uniq evs) :
    Inv evs (es ++ [.removeChannel ch]) ⟨p.removeChannel ch, .handler⟩ := by
  have hcalls : ∀ id, calls id (es ++ [.removeChannel ch]) = calls id es := fun id => by
    rw [calls_append]
    exact List.append_nil _
  have hactive : Uniq p.activeEvents := fun _ _ _ hi hj => huniq (h.ptr hi) (h.ptr hj)
  constructor
  case length => rw [length_removeChannel]; exact h.length
  case last => exact h.last
  case entry =>
    intro k e he
    rcases getElem?_removeChannel (p := p) (k := k) with heq | ⟨e', he', -, heq⟩
    · exact h.entry (heq.symm.trans he)
    · obtain ⟨e₀, he₀, hevents, -⟩ := h.entry he'
      obtain rfl := Option.some.inj (heq.symm.trans he)
      exact ⟨e₀, he₀, hevents, fun hptr => absurd rfl hptr⟩
  case kept =>
    intro k id hptr hrem
    rw [removed_snoc, not_or] at hrem
    exact ptrAt_removeChannel_of_ne (h.kept hptr hrem.1) fun hid => hrem.2 ⟨ch, rfl, hid.symm⟩
  case gone =>
    intro k id hrem hk
    rcases removed_snoc.mp hrem with hrem | ⟨ch', heq, rfl⟩
    · exact fun hptr => h.gone hrem hk (ptrAt_removeChannel hptr)
    · cases heq
      exact hactive.removeChannel (Int.le_of_lt hk)
  case pending =>
    intro k id hptr hk
    rw [hcalls]
    exact h.pending hptr hk
  case done =>
    intro k id e he hid hle hrem
    rw [hcalls]
    exact h.done he hid hle fun hremoved => hrem (removed_snoc.mpr (.inl hremoved))
  case once =>
    intro id
    rw [hcalls]
    exact h.once

theorem Inv.step (h : Inv evs es s) (huniq : Uniq evs) (hs : Step s ev s') :
    Inv evs (es ++ [ev]) s' := by
  cases hs with
  | @call _ _ _ x _ hnext hptr hhandler =>
    obtain ⟨i, hi, he, rfl⟩ := next_some hnext
    refine h.advance huniq hi he rfl rfl (fun id => ?_) nofun
    rw [hptr, hhandler]
    by_cases hid : x = id
    · simp [calls, hid]
    · simp [calls, hid]
  | skip hnext hptr =>
    obtain ⟨i, hi, he, rfl⟩ := next_some hnext
    refine h.advance huniq hi he rfl rfl (fun id => ?_) nofun
    rw [hptr]
    rfl
  | unknown hnext hptr hhandler =>
    obtain ⟨i, hi, he, rfl⟩ := next_some hnext
    refine h.advance huniq hi he rfl rfl (fun id => ?_) nofun
    rw [hhandler]
    exact (ite_self _).symm
  | addChannel | updateChannel | closeFd | ret =>
    exact h.same rfl (Int.le_refl _) (fun _ hk => hk) (fun _ => rfl) nofun
  | removeChannel => exact h.removeChannel huniq
  | @returned p _ hnext =>
    obtain ⟨hlast, rfl⟩ := next_none hnext (by rw [h.length]; exact h.last)
    have hnat : ∀ k : Nat, p.lastActive ≤ k := fun k => Int.le_trans hlast (Int.natCast_nonneg k)
    exact h.same rfl (Int.sub_le_self _ Int.one_nonneg) (fun k _ => hnat k) (fun _ => rfl) nofun

theorem run_inv (h : Run Step ⟨p.wait evs, .test⟩ es s) (huniq : Uniq evs) : Inv evs es s := by
  induction h with
  | nil => exact .init
  | snoc _ hs ih => exact ih.step huniq hs

/-! ## The loop -/

/-- The test of the loop has an outcome, and there is an entry less to go then. -/
theorem exists_step (htest : s.phase = .test) :
    ∃ ev s', Step s ev s' ∧ s'.poller.lastActive < s.poller.lastActive := by
  obtain ⟨p, ph⟩ := s
  obtain rfl : ph = .test := htest
  have hlast : (next p).1.lastActive < p.lastActive := Int.sub_one_lt_of_le (Int.le_refl _)
  cases hnext : next p with
  | mk p' o =>
    rw [hnext] at hlast
    cases o with
    | none => exact ⟨_, _, .returned hnext, hlast⟩
    | some e =>
      cases hptr : e.ptr with
      | none => exact ⟨_, _, .skip hnext hptr, hlast⟩
      | some id =>
        cases hhandler : handler e.events with
        | none => exact ⟨_, _, .unknown hnext hptr hhandler, hlast⟩
        | some h => exact ⟨_, _, .call hnext hptr hhandler, hlast⟩

/-- When the loop has ended, its index is negative. -/
theorem last_of_returned (hrun : Run Step ⟨p.wait evs, .test⟩ es s) (huniq : Uniq evs)
    (hphase : s.phase = .returned) : s.poller.lastActive < 0 := by
  cases hrun with
  | nil => cases hphase
  | snoc hprev hs =>
    have hinv := run_inv hprev huniq
    cases hs with
    | returned hnext =>
      obtain ⟨hlast, rfl⟩ := next_none hnext (by rw [hinv.length]; exact hinv.last)
      exact Int.sub_one_lt_of_le hlast
    | call | skip | unknown | addChannel | updateChannel | closeFd | ret | removeChannel => cases hphase

theorem Step.not_call (hs : Step s ev s') (hinv : Inv evs es s) (hrem : Removed es id) :
    ev ≠ .call id h := by
  rintro rfl
  cases hs with
  | @call p _ _ _ _ hnext hptr =>
    obtain ⟨i, hi, he, rfl⟩ := next_some hnext
    have hlt : (i : Int) < p.lastActive := by omega
    exact hinv.gone hrem hlt (Option.bind_eq_some_iff.mpr ⟨_, he, hptr⟩)

/-- **Dispatch.** Whatever the handlers do to the poller, `loop_once` calls no handler of a channel after
`removeChannel` on it has returned. When it returns it has called exactly one handler, exactly once, of
every channel in the list that has not been removed: the read handler if ERR or IN is set, the write
handler otherwise. The other channels were called at most once. -/
theorem dispatch (hnodup : (evs.map Active.ptr).Nodup)
    (hevents : ∀ e ∈ evs, isRead e.events = true ∨ isWrite e.events = true)
    (hrun : Run Step ⟨p.wait evs, .test⟩ es s) :
    (∀ ch a b, es = a ++ .removeChannel ch :: b → ∀ h, .call ch.id h ∉ b) ∧
    (s.phase = .returned → ∀ e ∈ evs, ∀ id, e.ptr = some id → (∀ ch, .removeChannel ch ∈ es → ch.id ≠ id) →
      calls id es = [if isRead e.events then .read else .write]) ∧
    ∀ id, (calls id es).length ≤ 1 := by
  have huniq := uniq_of_nodup hnodup
  have hinv := run_inv hrun huniq
  refine ⟨?_, ?_, fun id => hinv.once⟩
  · rintro ch a b rfl h hmem
    obtain ⟨b₁, b₂, rfl⟩ := List.append_of_mem hmem
    rw [← List.cons_append, ← List.append_assoc] at hrun
    obtain ⟨t, hbefore, hrest⟩ := run_append_iff.mp hrun
    obtain ⟨u, hcall, -⟩ := run_cons_iff.mp hrest
    have hrem : Removed (a ++ .removeChannel ch :: b₁) ch.id :=
      ⟨ch, List.mem_append_right _ List.mem_cons_self, rfl⟩
    exact hcall.not_call (run_inv hbefore huniq) hrem rfl
  · intro hphase e he id hid hrem
    obtain ⟨k, hk⟩ := List.mem_iff_getElem?.mp he
    have hlast := last_of_returned hrun huniq hphase
    have hdone := hinv.done hk hid (by omega) fun ⟨ch, hch, heq⟩ => hrem ch hch heq
    rw [hdone, handler]
    cases hread : isRead e.events with
    | true => rfl
    | false =>
      have hwrite := (hevents e he).resolve_left (by simp [hread])
      simp [hwrite]

/-- Of three channels that are ready, the one that is dispatched first removes itself and the last one. -/
theorem dispatch_removes : ∃ es s, Run Step
      ⟨({} : PollerEpoll).wait [⟨some 1, 0x1⟩, ⟨some 2, 0x4⟩, ⟨some 3, 0x9⟩], .test⟩ es s ∧
    .removeChannel ⟨1, 5, 0x1⟩ ∈ es ∧ s.phase = .returned ∧ calls 2 es = [.write] := by
  have hrun : ∃ s, Run Step
      ⟨({} : PollerEpoll).wait [⟨some 1, 0x1⟩, ⟨some 2, 0x4⟩, ⟨some 3, 0x9⟩], .test⟩
      [.call 3 .read, .removeChannel ⟨3, 7, 0x1⟩, .removeChannel ⟨1, 5, 0x1⟩, .ret, .call 2 .write, .ret,
        .skip, .returned] s ∧ s.phase = .returned := by
    refine ⟨?s, ?run, ?facts⟩
    case run =>
      refine .cons (.call rfl rfl (by decide)) ?_
      refine .cons .removeChannel ?_
      refine .cons .removeChannel ?_
      refine .cons .ret ?_
      refine .cons (.call rfl rfl (by decide)) ?_
      refine .cons .ret ?_
      refine .cons (.skip rfl rfl) ?_
      refine .cons (.returned rfl) ?_
      exact .nil
    case facts => rfl
  obtain ⟨s, hrun, hphase⟩ := hrun
  have hdispatch := dispatch (by decide) (by decide) hrun
  refine ⟨_, s, hrun, by simp, hphase, ?_⟩
  exact hdispatch.2.1 hphase ⟨some 2, 0x4⟩ (by simp) 2 rfl (by simp)

end Dispatch

end NetLibrary.PollerEpoll
