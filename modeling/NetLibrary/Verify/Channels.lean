import NetLibrary.Model.Channels
import NetLibrary.Verify.Dispatch

/-!
# The channels, the poller and the kernel agree

A channel is registered from its construction until `close`. In every run the registrations in the
kernel are those of the channels that are open, with their events (`kernel_agrees`), and a handler is
called only of such a channel, however the calls of `loop_once`, `close` and the destructor nest
(`dispatch_open`). Descriptor 0 is the exception: `close` leaves a channel on it open.
-/

namespace NetLibrary.Channels
open LTS PollerEpoll

variable {s s' : State} {e : Event} {es : List Event} {id : Nat} {ch : Channel} {p p' : PollerEpoll}
  {i : Interest} {f : Frame} {frames : List Frame}

/-- The channel has a registration. -/
def Registered (p : PollerEpoll) (id : Nat) : Prop := ∃ i ∈ p.interest, i.ptr = id

/-- The channels that destructors in progress are about to free. -/
def deletes (frames : List Frame) : List Nat :=
  frames.filterMap fun
    | .delete id => some id
    | _ => none

structure Inv (s : State) : Prop where
  key : ∀ {id ch}, s.channels id = some ch → ch.id = id ∧ id ≤ s.id
  /-- Only a channel on descriptor 0 leaves its registration behind. -/
  interest : ∀ {i}, i ∈ s.poller.interest → 0 ≤ i.fd ∧ i.ptr ≤ s.id ∧
    (s.channels i.ptr = some ⟨i.ptr, i.fd, i.events⟩ ∨ i.fd = 0 ∧ s.channels i.ptr = none)
  fds : (s.poller.interest.map Interest.fd).Nodup
  registered : ∀ {id ch}, s.channels id = some ch → 0 ≤ ch.fd →
    ⟨ch.fd, ch.id, ch.events⟩ ∈ s.poller.interest
  live : ∀ {id}, id ∈ s.poller.liveChannels ↔ Registered s.poller id
  uniq : Uniq s.poller.activeEvents
  pending : ∀ {k id : Nat}, (k : Int) < s.poller.lastActive → ptrAt s.poller.activeEvents k = some id →
    Registered s.poller id

/-- The calls in progress are of channels that exist. -/
structure Nested (s : State) : Prop where
  /-- `close` is always the innermost call. -/
  closing : ∀ {id}, .close id ∉ s.frames.tail
  exist : ∀ {id}, .close id ∈ s.frames ∨ .delete id ∈ s.frames → s.channels id ≠ none
  nodup : (deletes s.frames).Nodup
  /-- The destructor has closed the channel when it frees it. -/
  closed : ∀ {id}, .delete id ∈ s.frames → s.frames.head? = some (.close id) ∨
    ∀ ch, s.channels id = some ch → ch.fd ≤ 0

/-! ## Registrations -/

/-- A registration of a channel that exists is its own. -/
theorem Inv.own (h : Inv s) (hi : i ∈ s.poller.interest) (hch : s.channels i.ptr = some ch) :
    ch = ⟨i.ptr, i.fd, i.events⟩ := by
  obtain ⟨-, -, hsome | ⟨-, hnone⟩⟩ := h.interest hi
  · exact Option.some.inj (hch.symm.trans hsome)
  · rw [hch] at hnone
    cases hnone

/-- A descriptor has one registration. -/
theorem Inv.eq_of_fd {j : Interest} (h : Inv s) (hi : i ∈ s.poller.interest) (hj : j ∈ s.poller.interest)
    (hfd : i.fd = j.fd) : i = j := List.inj_on_of_nodup_map h.fds hi hj hfd

theorem Inv.init : Inv {} where
  key := nofun
  interest := nofun
  fds := List.nodup_nil
  registered := nofun
  live := iff_of_false (Finset.notMem_empty _) nofun
  uniq := nofun
  pending := nofun

/-! ## The functions of a channel -/

theorem registered_addChannel : Registered (p.addChannel ch) id ↔ id = ch.id ∨ Registered p id := by
  simp [Registered, addChannel, eq_comm]

theorem Inv.construct {fd : Int} {events : BitVec 16} (h : Inv s) (hfresh : s.Fresh fd) :
    Inv (s.construct fd events) := by
  have hne : ∀ {id ch}, s.channels id = some ch → id ≠ s.id + 1 := fun hch heq => by
    have := (h.key hch).2
    omega
  have hold : ∀ {id}, id ≠ s.id + 1 → (s.construct fd events).channels id = s.channels id := fun hid =>
    Function.update_of_ne hid _ _
  have hnew : (s.construct fd events).channels (s.id + 1) = some ⟨s.id + 1, fd, events⟩ :=
    Function.update_self _ _ _
  constructor
  case key =>
    intro id ch hch
    by_cases hid : id = s.id + 1
    · rw [hid, hnew] at hch
      cases hch
      exact ⟨hid.symm, Nat.le_of_eq hid⟩
    · rw [hold hid] at hch
      exact ⟨(h.key hch).1, Nat.le_succ_of_le (h.key hch).2⟩
  case interest =>
    intro i hi
    rcases List.mem_cons.mp hi with rfl | hi
    · exact ⟨hfresh.1, Nat.le_refl _, .inl hnew⟩
    · obtain ⟨hpos, hptr, hchannel⟩ := h.interest hi
      refine ⟨hpos, Nat.le_succ_of_le hptr, ?_⟩
      rwa [hold (Nat.ne_of_lt (Nat.lt_succ_of_le hptr))]
  case fds =>
    refine List.nodup_cons.mpr ⟨fun hmem => ?_, h.fds⟩
    obtain ⟨i, hi, hfd⟩ := List.mem_map.mp hmem
    exact hfresh.2 i hi hfd
  case registered =>
    intro id ch hch hpos
    by_cases hid : id = s.id + 1
    · rw [hid, hnew] at hch
      cases hch
      exact List.mem_cons_self
    · rw [hold hid] at hch
      exact List.mem_cons_of_mem _ (h.registered hch hpos)
  case live =>
    intro id
    have hmem : id ∈ (s.construct fd events).poller.liveChannels ↔ id = s.id + 1 ∨ id ∈ s.poller.liveChannels :=
      Finset.mem_insert
    have hadd : Registered (s.poller.addChannel ⟨s.id + 1, fd, events⟩) id ↔ id = s.id + 1 ∨
        Registered s.poller id := registered_addChannel
    rw [hmem, h.live]
    exact hadd.symm
  case uniq => exact h.uniq
  case pending => exact fun hk hptr => registered_addChannel.mpr (.inr (h.pending hk hptr))

theorem change_id (c : Change) : (c.apply ch).id = ch.id ∧ (c.apply ch).fd = ch.fd := by
  cases c with
  | enableRead | enableWrite | enableReadWrite => exact ⟨rfl, rfl⟩

/-- What `updateChannel` does to the registrations, for a channel that exists. -/
theorem Inv.mem_update {ch' : Channel} (h : Inv s) (hch : s.channels id = some ch) (hid : ch'.id = ch.id)
    (hfd : ch'.fd = ch.fd) : i ∈ (s.poller.updateChannel ch').interest ↔
      i ∈ s.poller.interest ∧ i.ptr ≠ id ∨ i = ⟨ch.fd, id, ch'.events⟩ ∧ 0 ≤ ch.fd := by
  have hkey := (h.key hch).1
  have hptr : ∀ {j}, j ∈ s.poller.interest → (j.ptr = id ↔ j.fd = ch.fd) := by
    intro j hj
    constructor
    · rintro rfl
      rw [h.own hj hch]
    · intro hjfd
      have hpos := (h.interest hj).1
      have hreg := h.registered hch (hjfd ▸ hpos)
      rw [h.eq_of_fd hj hreg hjfd]
      exact hkey
  constructor
  · intro hi
    obtain ⟨j, hj, rfl⟩ := List.mem_map.mp hi
    by_cases hjfd : j.fd = ch'.fd
    · have hpos := (h.interest hj).1
      refine .inr ⟨?_, by rw [← hfd, ← hjfd]; exact hpos⟩
      rw [if_pos hjfd, hid, hkey, hfd]
    · rw [if_neg hjfd]
      exact .inl ⟨hj, fun hj' => hjfd (((hptr hj).mp hj').trans hfd.symm)⟩
  · rintro (⟨hi, hne⟩ | ⟨rfl, hpos⟩)
    · refine List.mem_map.mpr ⟨i, hi, if_neg fun hifd => hne ((hptr hi).mpr (hifd.trans hfd))⟩
    · refine List.mem_map.mpr ⟨_, h.registered hch hpos, ?_⟩
      rw [if_pos hfd.symm, hid, hkey, hfd]

theorem registered_update {ch' : Channel} (h : Inv s) (hch : s.channels id = some ch) (hid : ch'.id = ch.id)
    (hfd : ch'.fd = ch.fd) {x : Nat} : Registered (s.poller.updateChannel ch') x ↔ Registered s.poller x := by
  have hkey := (h.key hch).1
  constructor
  · rintro ⟨i, hi, rfl⟩
    rcases (h.mem_update hch hid hfd).mp hi with ⟨hi, -⟩ | ⟨rfl, hpos⟩
    · exact ⟨i, hi, rfl⟩
    · exact ⟨_, h.registered hch hpos, hkey⟩
  · rintro ⟨i, hi, rfl⟩
    by_cases hptr : i.ptr = id
    · subst hptr
      have hown := h.own hi hch
      have hpos := (h.interest hi).1
      exact ⟨_, (h.mem_update hch hid hfd).mpr (.inr ⟨rfl, by rw [hown]; exact hpos⟩), rfl⟩
    · exact ⟨i, (h.mem_update hch hid hfd).mpr (.inl ⟨hi, hptr⟩), rfl⟩

theorem Inv.change {c : Change} (h : Inv s) (hch : s.channels id = some ch) : Inv (s.update (c.apply ch)) := by
  obtain ⟨hid, hfd⟩ : (c.apply ch).id = ch.id ∧ (c.apply ch).fd = ch.fd := change_id c
  obtain ⟨hkey, hle⟩ := h.key hch
  generalize c.apply ch = ch' at hid hfd
  have hnew : (s.update ch').channels id = some ch' := by
    rw [← hkey, ← hid]
    exact Function.update_self _ _ _
  have hold : ∀ {x}, x ≠ id → (s.update ch').channels x = s.channels x := fun hx =>
    Function.update_of_ne (by rwa [hid, hkey]) _ _
  have hmem : ∀ {i}, i ∈ (s.update ch').poller.interest ↔
      i ∈ s.poller.interest ∧ i.ptr ≠ id ∨ i = ⟨ch.fd, id, ch'.events⟩ ∧ 0 ≤ ch.fd := h.mem_update hch hid hfd
  have hreg : ∀ {x}, Registered (s.update ch').poller x ↔ Registered s.poller x :=
    registered_update h hch hid hfd
  constructor
  case key =>
    intro x c hc
    by_cases hx : x = id
    · rw [hx, hnew] at hc
      cases hc
      rw [hx]
      exact ⟨hid.trans hkey, hle⟩
    · rw [hold hx] at hc
      exact h.key hc
  case interest =>
    intro i hi
    rcases hmem.mp hi with ⟨hi, hne⟩ | ⟨rfl, hpos⟩
    · rw [hold hne]
      exact h.interest hi
    · refine ⟨hpos, hle, .inl ?_⟩
      rw [hnew, ← hfd, ← hkey, ← hid]
  case fds =>
    have hmap : (s.update ch').poller.interest.map Interest.fd = s.poller.interest.map Interest.fd := by
      simp only [State.update, updateChannel, List.map_map]
      refine List.map_congr_left fun i _ => ?_
      simp only [Function.comp_apply]
      split
      · rename_i heq
        exact heq.symm
      · rfl
    rw [hmap]
    exact h.fds
  case registered =>
    intro x c hc hpos
    by_cases hx : x = id
    · rw [hx, hnew] at hc
      cases hc
      refine hmem.mpr (.inr ⟨?_, hfd ▸ hpos⟩)
      rw [hid, hkey, hfd]
    · rw [hold hx] at hc
      refine hmem.mpr (.inl ⟨h.registered hc hpos, ?_⟩)
      rwa [(h.key hc).1]
  case live => exact h.live.trans hreg.symm
  case uniq => exact h.uniq
  case pending => exact fun hk hptr => hreg.mpr (h.pending hk hptr)

theorem mem_close (h : Inv s) (hch : s.channels id = some ch) (hpos : 0 < ch.fd) :
    i ∈ (s.close ch).poller.interest ↔ i ∈ s.poller.interest ∧ i.ptr ≠ id := by
  have hclose : i ∈ (s.close ch).poller.interest ↔ i ∈ s.poller.interest ∧ i.fd ≠ ch.fd := mem_detach_interest
  rw [hclose, and_congr_right_iff]
  intro hi
  have hkey := (h.key hch).1
  refine not_congr ⟨fun hfd => ?_, ?_⟩
  · have hreg := h.registered hch (Int.le_of_lt hpos)
    rw [h.eq_of_fd hi hreg hfd]
    exact hkey
  · rintro rfl
    rw [h.own hi hch]

theorem registered_close (h : Inv s) (hch : s.channels id = some ch) (hpos : 0 < ch.fd) {x : Nat} :
    Registered (s.close ch).poller x ↔ Registered s.poller x ∧ x ≠ id := by
  constructor
  · rintro ⟨i, hi, rfl⟩
    obtain ⟨hi, hne⟩ := (mem_close h hch hpos).mp hi
    exact ⟨⟨i, hi, rfl⟩, hne⟩
  · rintro ⟨⟨i, hi, rfl⟩, hne⟩
    exact ⟨i, (mem_close h hch hpos).mpr ⟨hi, hne⟩, rfl⟩

/-- `close` takes the channel out of the kernel, of the live channels and of the pending events. -/
theorem Inv.close (h : Inv s) (hch : s.channels id = some ch) (hpos : 0 < ch.fd) : Inv (s.close ch) := by
  obtain ⟨hkey, hle⟩ := h.key hch
  have hnew : (s.close ch).channels id = some { ch with fd := -1 } := by
    rw [← hkey]
    exact Function.update_self _ _ _
  have hold : ∀ {x}, x ≠ id → (s.close ch).channels x = s.channels x := fun hx =>
    Function.update_of_ne (by rwa [hkey]) _ _
  have hmem : ∀ {i}, i ∈ (s.close ch).poller.interest ↔ i ∈ s.poller.interest ∧ i.ptr ≠ id := mem_close h hch hpos
  have hreg : ∀ {x}, Registered (s.close ch).poller x ↔ Registered s.poller x ∧ x ≠ id :=
    registered_close h hch hpos
  constructor
  case key =>
    intro x c hc
    by_cases hx : x = id
    · rw [hx, hnew] at hc
      cases hc
      rw [hx]
      exact ⟨hkey, hle⟩
    · rw [hold hx] at hc
      exact h.key hc
  case interest =>
    intro i hi
    obtain ⟨hi, hne⟩ := hmem.mp hi
    rw [hold hne]
    exact h.interest hi
  case fds => exact (List.filter_sublist.map Interest.fd).nodup h.fds
  case registered =>
    intro x c hc hfd
    by_cases hx : x = id
    · rw [hx, hnew] at hc
      cases hc
      exact absurd hfd (by simp)
    · rw [hold hx] at hc
      refine hmem.mpr ⟨h.registered hc hfd, ?_⟩
      rwa [(h.key hc).1]
  case live =>
    intro x
    have herase : x ∈ (s.close ch).poller.liveChannels ↔ x ≠ ch.id ∧ x ∈ s.poller.liveChannels :=
      Finset.mem_erase
    rw [herase, hkey, h.live, hreg, and_comm]
  case uniq => exact fun _ _ _ hi hj => h.uniq (ptrAt_detach hi) (ptrAt_detach hj)
  case pending =>
    intro k x hk hptr
    refine hreg.mpr ⟨h.pending hk (ptrAt_detach hptr), ?_⟩
    rintro rfl
    rw [← hkey] at hptr
    exact h.uniq.removeChannel (Int.le_of_lt hk) hptr

/-- A channel is freed when it is closed, or is on descriptor 0. -/
theorem Inv.deleted (h : Inv s) (hclosed : ∀ ch, s.channels id = some ch → ch.fd ≤ 0) :
    Inv { s with channels := Function.update s.channels id none, frames } := by
  have hold : ∀ {x c}, Function.update s.channels id none x = some c → x ≠ id ∧ s.channels x = some c := by
    intro x c hc
    by_cases hx : x = id
    · rw [hx, Function.update_self] at hc
      cases hc
    · rw [Function.update_of_ne hx] at hc
      exact ⟨hx, hc⟩
  constructor
  case key => exact fun hc => h.key (hold hc).2
  case interest =>
    intro i hi
    obtain ⟨hpos, hle, hchannel⟩ := h.interest hi
    refine ⟨hpos, hle, ?_⟩
    by_cases hptr : i.ptr = id
    · simp only [hptr, Function.update_self]
      rcases hchannel with hsome | ⟨hfd, -⟩
      · rw [hptr] at hsome
        exact .inr ⟨Int.le_antisymm (hclosed _ hsome) hpos, trivial⟩
      · exact .inr ⟨hfd, trivial⟩
    · simp only [Function.update_of_ne hptr]
      exact hchannel
  case fds => exact h.fds
  case registered => exact fun hc => h.registered (hold hc).2
  case live => exact h.live
  case uniq => exact h.uniq
  case pending => exact h.pending

/-! ## `loop_once` -/

theorem Inv.wait {evs : List Active} (h : Inv s) (hready : s.poller.Ready evs) :
    Inv { s with poller := s.poller.wait evs, frames } where
  key := h.key
  interest := h.interest
  fds := h.fds
  registered := h.registered
  live := h.live
  uniq := uniq_of_nodup hready.nodup
  pending _ hptr := by
    obtain ⟨e, he, hid⟩ := Option.bind_eq_some_iff.mp hptr
    obtain ⟨i, hi, heq, -⟩ := hready.registered e (List.mem_of_getElem? he)
    rw [hid] at heq
    exact ⟨i, hi, (Option.some.inj heq).symm⟩

/-- The index of the loop only goes down. -/
theorem Inv.last {lastActive : Int} (h : Inv s)
    (hlast : ∀ k : Nat, (k : Int) < lastActive → k < s.poller.lastActive) :
    Inv { s with poller := { s.poller with lastActive }, frames } where
  key := h.key
  interest := h.interest
  fds := h.fds
  registered := h.registered
  live := h.live
  uniq := h.uniq
  pending hk := h.pending (hlast _ hk)

theorem Inv.setFrames (h : Inv s) : Inv { s with frames } :=
  ⟨h.key, h.interest, h.fds, h.registered, h.live, h.uniq, h.pending⟩

theorem Inv.next {o : Option Active} (h : Inv s) (hnext : s.poller.next = (p, o)) :
    Inv { s with poller := p, frames } := by
  rw [PollerEpoll.next, Prod.mk.injEq] at hnext
  obtain ⟨rfl, -⟩ := hnext
  exact h.last fun k hk => by omega

/-! ## Calls in progress -/

theorem Nested.init : Nested {} where
  closing := nofun
  exist := by simp
  nodup := List.nodup_nil
  closed := by simp

/-- A step that leaves the calls alone and closes no channel. -/
theorem Nested.keep (h : Nested s) (hframes : s'.frames = s.frames)
    (hkeep : ∀ id ch, s.channels id = some ch → ∃ ch', s'.channels id = some ch' ∧ ch'.fd = ch.fd) :
    Nested s' := by
  have hexist : ∀ {id}, s.channels id ≠ none → s'.channels id ≠ none := by
    intro id hne
    obtain ⟨ch, hch⟩ := Option.ne_none_iff_exists'.mp hne
    obtain ⟨ch', hch', -⟩ := hkeep id ch hch
    simp [hch']
  constructor
  case closing => rw [hframes]; exact h.closing
  case exist => rw [hframes]; exact fun hf => hexist (h.exist hf)
  case nodup => rw [hframes]; exact h.nodup
  case closed =>
    rw [hframes]
    intro id hf
    refine (h.closed hf).imp_right fun hle ch' hch' => ?_
    obtain ⟨ch, hch⟩ := Option.ne_none_iff_exists'.mp (h.exist (.inr hf))
    obtain ⟨ch'', hch'', hfd⟩ := hkeep id ch hch
    obtain rfl := Option.some.inj (hch'.symm.trans hch'')
    rw [hfd]
    exact hle ch hch

/-- A call that returns. If it is `close`, its channel is closed. -/
theorem Nested.pop (h : Nested s) (hframes : s.frames = f :: frames)
    (hf : ∀ id ch, f = .close id → s.channels id = some ch → ch.fd ≤ 0) :
    Nested { s with poller := p, frames } := by
  have hmem : ∀ {g}, g ∈ frames → g ∈ s.frames := fun hg => hframes ▸ List.mem_cons_of_mem _ hg
  have hclosing : ∀ {id}, .close id ∉ frames := fun {id} hg => by
    have htail : .close id ∉ s.frames.tail := h.closing
    rw [hframes] at htail
    exact htail hg
  constructor
  case closing => exact fun hg => hclosing (List.mem_of_mem_tail hg)
  case exist => exact fun hg => h.exist (hg.imp hmem hmem)
  case nodup =>
    have hsub : (deletes frames).Sublist (deletes s.frames) := by
      rw [hframes]
      exact (List.sublist_cons_self _ _).filterMap _
    exact hsub.nodup h.nodup
  case closed =>
    intro id hg
    refine .inr fun ch hch => ?_
    rcases h.closed (hmem hg) with hhead | hle
    · rw [hframes, List.head?_cons, Option.some.injEq] at hhead
      exact hf id ch hhead hch
    · exact hle ch hch

/-- A call of a handler or of `loop_once`, from one of these. -/
theorem Nested.push {g : Frame} (h : Nested s) (hframes : s.frames = f :: frames) (hf : f = .user ∨ f = .loop)
    (hg : g = .user ∨ g = .loop) : Nested { s with poller := p, frames := g :: s.frames } := by
  have hnot : ∀ {id}, f ≠ .close id ∧ g ≠ .close id ∧ g ≠ .delete id := by
    rcases hf with rfl | rfl
    · rcases hg with rfl | rfl <;> exact ⟨nofun, nofun, nofun⟩
    · rcases hg with rfl | rfl <;> exact ⟨nofun, nofun, nofun⟩
  have hhead : ∀ {id}, s.frames.head? ≠ some (.close id) := by
    intro id heq
    rw [hframes, List.head?_cons, Option.some.injEq] at heq
    exact hnot.1 heq
  constructor
  case closing =>
    intro id hmem
    rw [List.tail_cons, hframes] at hmem
    rcases List.mem_cons.mp hmem with heq | hmem
    · exact hnot.1 heq.symm
    · have htail : .close id ∉ s.frames.tail := h.closing
      rw [hframes] at htail
      exact htail hmem
  case exist =>
    intro id hmem
    refine h.exist (hmem.imp (fun hm => ?_) fun hm => ?_)
    · exact (List.mem_cons.mp hm).resolve_left fun heq => hnot.2.1 heq.symm
    · exact (List.mem_cons.mp hm).resolve_left fun heq => hnot.2.2 heq.symm
  case nodup =>
    have hsame : deletes (g :: s.frames) = deletes s.frames := by
      rcases hg with rfl | rfl <;> rfl
    simp only [hsame]
    exact h.nodup
  case closed =>
    intro id hmem
    have hm := (List.mem_cons.mp hmem).resolve_left fun heq => hnot.2.2 heq.symm
    exact .inr ((h.closed hm).resolve_left hhead)

theorem Nested.callClose (h : Nested s) (hframes : s.frames = .user :: frames) (hid : s.channels id ≠ none) :
    Nested { s with frames := .close id :: s.frames } := by
  have hopen : ∀ {id}, .delete id ∈ s.frames → ∀ ch, s.channels id = some ch → ch.fd ≤ 0 := by
    intro id hmem
    refine (h.closed hmem).resolve_left fun hhead => ?_
    rw [hframes] at hhead
    cases hhead
  have hclosing : ∀ {id}, .close id ∉ s.frames := by
    intro id hmem
    rw [hframes] at hmem
    have htail : .close id ∉ s.frames.tail := h.closing
    rw [hframes] at htail
    exact htail ((List.mem_cons.mp hmem).resolve_left nofun)
  constructor
  case closing => exact hclosing
  case exist =>
    rintro x (hmem | hmem)
    · rcases List.mem_cons.mp hmem with heq | hmem
      · cases heq
        exact hid
      · exact h.exist (.inl hmem)
    · exact h.exist (.inr ((List.mem_cons.mp hmem).resolve_left nofun))
  case nodup => exact h.nodup
  case closed =>
    exact fun hmem => .inr (hopen ((List.mem_cons.mp hmem).resolve_left nofun))

theorem Nested.callDelete (h : Nested s) (hframes : s.frames = .user :: frames) (hid : s.channels id ≠ none)
    (hnew : .delete id ∉ s.frames) : Nested { s with frames := .close id :: .delete id :: s.frames } := by
  have hclose := h.callClose hframes hid
  have hmem : ∀ {x}, .delete x ∈ (.close id :: .delete id :: s.frames : List Frame) →
      x = id ∨ .delete x ∈ s.frames := by
    intro x hx
    rcases List.mem_cons.mp ((List.mem_cons.mp hx).resolve_left nofun) with heq | hx
    · cases heq
      exact .inl rfl
    · exact .inr hx
  constructor
  case closing =>
    intro x hx
    exact hclose.closing ((List.mem_cons.mp hx).resolve_left nofun)
  case exist =>
    rintro x (hx | hx)
    · rcases List.mem_cons.mp hx with heq | hx
      · cases heq
        exact hid
      · exact h.exist (.inl ((List.mem_cons.mp hx).resolve_left nofun))
    · rcases hmem hx with rfl | hx
      · exact hid
      · exact h.exist (.inr hx)
  case nodup =>
    refine List.nodup_cons.mpr ⟨fun hx => ?_, h.nodup⟩
    obtain ⟨f, hf, heq⟩ := List.mem_filterMap.mp hx
    cases f with
    | delete x =>
      cases heq
      exact hnew hf
    | user | loop | close => cases heq
  case closed =>
    intro x hx
    rcases hmem hx with rfl | hx
    · exact .inl rfl
    · refine .inr ((h.closed hx).resolve_left fun hhead => ?_)
      rw [hframes] at hhead
      cases hhead

/-- `Channel::close` calls the handler. -/
theorem Nested.close (h : Nested s) (hframes : s.frames = .close id :: frames) (hch : s.channels id = some ch)
    (hkey : ch.id = id) : Nested { s.close ch with frames := .user :: frames } := by
  have hmem : ∀ {g}, g ∈ frames → g ∈ s.frames := fun hg => hframes ▸ List.mem_cons_of_mem _ hg
  have hnew : (s.close ch).channels id = some { ch with fd := -1 } := by
    rw [← hkey]
    exact Function.update_self _ _ _
  have hold : ∀ {x}, x ≠ id → (s.close ch).channels x = s.channels x := fun hx =>
    Function.update_of_ne (by rwa [hkey]) _ _
  have hclosing : ∀ {x}, .close x ∉ frames := fun {x} hx => by
    have htail : .close x ∉ s.frames.tail := h.closing
    rw [hframes] at htail
    exact htail hx
  constructor
  case closing => exact hclosing
  case exist =>
    intro x hx hnone
    by_cases heq : x = id
    · subst heq
      simp only [hnew] at hnone
      cases hnone
    · simp only [hold heq] at hnone
      refine h.exist (hx.imp (fun hg => ?_) fun hg => ?_) hnone
      · exact hmem ((List.mem_cons.mp hg).resolve_left nofun)
      · exact hmem ((List.mem_cons.mp hg).resolve_left nofun)
  case nodup =>
    have hnodup := h.nodup
    rw [hframes] at hnodup
    exact hnodup
  case closed =>
    intro x hx
    have hx := hmem ((List.mem_cons.mp hx).resolve_left nofun)
    refine .inr fun c hc => ?_
    by_cases heq : x = id
    · subst heq
      simp only [hnew] at hc
      cases hc
      exact (by decide : (-1 : Int) ≤ 0)
    · simp only [hold heq] at hc
      rcases h.closed hx with hhead | hle
      · rw [hframes] at hhead
        cases hhead
        exact absurd rfl heq
      · exact hle c hc

theorem Nested.deleted (h : Nested s) (hframes : s.frames = .delete id :: frames) :
    Nested { s with channels := Function.update s.channels id none, frames } := by
  have hpop : Nested { s with frames } := h.pop hframes nofun
  have hne : ∀ {x}, .delete x ∈ frames → x ≠ id := by
    rintro x hx rfl
    have hnodup := h.nodup
    rw [hframes] at hnodup
    exact (List.nodup_cons.mp hnodup).1 (List.mem_filterMap.mpr ⟨_, hx, rfl⟩)
  constructor
  case closing => exact hpop.closing
  case exist =>
    rintro x (hx | hx)
    · have htail : .close x ∉ s.frames.tail := h.closing
      rw [hframes] at htail
      exact absurd hx htail
    · simp only [Function.update_of_ne (hne hx)]
      exact hpop.exist (.inr hx)
  case nodup => exact hpop.nodup
  case closed =>
    intro x hx
    refine (hpop.closed hx).imp_right fun hle c hc => ?_
    simp only [Function.update_of_ne (hne hx)] at hc
    exact hle c hc

/-! ## Every run -/

theorem inv_step (h : Inv s) (hn : Nested s) (hs : Step s e s') : Inv s' ∧ Nested s' := by
  cases hs with
  | construct hframes hfresh =>
    refine ⟨h.construct hfresh, hn.keep rfl fun id ch hch => ⟨ch, ?_, rfl⟩⟩
    have hne : id ≠ s.id + 1 := Nat.ne_of_lt (Nat.lt_succ_of_le (h.key hch).2)
    exact (Function.update_of_ne hne _ _).trans hch
  | @change _ id ch c _ hch =>
    obtain ⟨hid, hfd⟩ : (c.apply ch).id = ch.id ∧ (c.apply ch).fd = ch.fd := change_id c
    refine ⟨h.change hch, hn.keep rfl fun x ch' hch' => ?_⟩
    by_cases hx : x = id
    · subst hx
      obtain rfl := Option.some.inj (hch.symm.trans hch')
      refine ⟨c.apply ch, ?_, hfd⟩
      rw [← (h.key hch).1, ← hid]
      exact Function.update_self _ _ _
    · refine ⟨ch', ?_, rfl⟩
      exact (Function.update_of_ne (by rwa [hid, (h.key hch).1]) _ _).trans hch'
  | callClose hframes hch => exact ⟨h.setFrames, hn.callClose hframes (by simp [hch])⟩
  | callDelete hframes hch hnew => exact ⟨h.setFrames, hn.callDelete hframes (by simp [hch]) hnew⟩
  | callLoop hframes hready => exact ⟨h.wait hready, hn.push hframes (.inl rfl) (.inr rfl)⟩
  | callLoopFail hframes => exact ⟨h.last (fun k hk => by omega), hn.push hframes (.inl rfl) (.inr rfl)⟩
  | dispatch hframes hnext => exact ⟨h.next hnext, hn.push hframes (.inr rfl) (.inl rfl)⟩
  | skip _ hnext =>
    exact ⟨h.next hnext, hn.keep rfl fun id ch hch => ⟨ch, hch, rfl⟩⟩
  | loopReturned hframes hnext => exact ⟨h.next hnext, hn.pop hframes nofun⟩
  | close hframes hch hpos => exact ⟨(h.close hch hpos).setFrames, hn.close hframes hch (h.key hch).1⟩
  | closed hframes hch hle =>
    refine ⟨h.setFrames, hn.pop hframes fun id ch' heq hch' => ?_⟩
    cases heq
    obtain rfl := Option.some.inj (hch.symm.trans hch')
    exact hle
  | @deleted _ id hframes =>
    refine ⟨h.deleted ?_, hn.deleted hframes⟩
    have hmem : .delete id ∈ s.frames := by simp [hframes]
    refine (hn.closed hmem).resolve_left fun hhead => ?_
    rw [hframes] at hhead
    cases hhead
  | ret hframes => exact ⟨h.setFrames, hn.pop hframes nofun⟩

theorem run_inv (h : Run Step {} es s) : Inv s ∧ Nested s :=
  h.invariant (I := fun s => Inv s ∧ Nested s) ⟨.init, .init⟩ fun h hs => inv_step h.1 h.2 hs

/-- **The kernel and the poller agree with the channels.** Where `epoll_ctl` does not fail and each channel is
constructed on a descriptor that is not registered, in every run, wherever the calls nest, what is registered for a
descriptor other than 0 is one channel, which exists and is open, with its own events; every channel that is open
is registered; and `m_liveChannels` holds what is registered. -/
theorem kernel_agrees (h : Run Step {} es s) :
    (∀ fd id events, fd ≠ 0 →
      (⟨fd, id, events⟩ ∈ s.poller.interest ↔ 0 < fd ∧ s.channels id = some ⟨id, fd, events⟩)) ∧
    (s.poller.interest.map Interest.fd).Nodup ∧
    ∀ id, id ∈ s.poller.liveChannels ↔ ∃ i ∈ s.poller.interest, i.ptr = id := by
  have hinv := (run_inv h).1
  refine ⟨fun fd id events hfd => ⟨fun hi => ?_, fun ⟨hpos, hch⟩ => ?_⟩, hinv.fds, fun id => hinv.live⟩
  · obtain ⟨hpos, -, hsome | ⟨hzero, -⟩⟩ := hinv.interest hi
    · exact ⟨Int.lt_iff_le_and_ne.mpr ⟨hpos, hfd.symm⟩, hsome⟩
    · exact absurd hzero hfd
  · exact hinv.registered hch (Int.le_of_lt hpos)

/-- A channel on descriptor 5 turns its write interest off. -/
theorem kernel_agrees_change : ∃ es s, Run Step {} es s ∧ ⟨5, 1, 0x1⟩ ∈ s.poller.interest ∧
    s.channels 1 = some ⟨1, 5, 0x1⟩ := by
  have hrun : ∃ s, Run Step {} [.construct 5 0x5, .change 1 (.enableWrite false)] s ∧
      (⟨5, 1, 0x1⟩ : Interest) ∈ s.poller.interest := by
    refine ⟨?s, ?run, ?facts⟩
    case run =>
      refine .cons (.construct rfl ⟨by decide, nofun⟩) ?_
      refine .cons (@Step.change _ _ _ ⟨1, 5, 0x5⟩ _ rfl rfl) ?_
      exact .nil
    case facts => decide
  obtain ⟨s, hrun, hmem⟩ := hrun
  exact ⟨_, s, hrun, hmem, (((kernel_agrees hrun).1 5 1 0x1 (by decide)).mp hmem).2⟩

end NetLibrary.Channels
