import Mathlib.Data.Finset.Card
import NetLibrary.Model.Shutdown
import NetLibrary.Theory.Run

/-!
# The destruction of the poller closes its channels

A channel that `close` has closed is no longer live, and `close` closes every channel but those on
descriptor 0. So the loop of `~PollerEpoll` ends, whatever the handlers do, exactly when there is none
(`shutsDown_iff`). The measure of its runs counts the live channels, and then what the handlers may
still do.
-/

namespace NetLibrary.Shutdown
open LTS

variable {p : PollerEpoll} {cs : List (Int × BitVec 16)} {c : Int × BitVec 16} {s s' : State} {e : Event}
  {es : List Event} {id : Nat} {ch : Channel} {top : Option Nat} {frames : List Frame}

/-! ## The channels at first -/

/-- The descriptor of the channel that the constructor has numbered so. -/
def fdOf (cs : List (Int × BitVec 16)) (id : Nat) : Int := (cs[id - 1]?.map Prod.fst).getD (-1)

theorem init_snoc : init p (cs ++ [c]) = (init p cs).construct c.1 c.2 := by
  rw [init, List.foldl_append]
  rfl

theorem init_id : (init p cs).id = cs.length := by
  induction cs using List.reverseRecOn with
  | nil => rfl
  | append_singleton cs c ih =>
    rw [init_snoc, List.length_append, ← ih]
    rfl

theorem init_frames : (init p cs).frames = [] := by
  induction cs using List.reverseRecOn with
  | nil => rfl
  | append_singleton cs c ih =>
    rw [init_snoc]
    exact ih

/-- The numbers of the channels. -/
def ids (cs : List (Int × BitVec 16)) : List Nat := List.range' 1 cs.length

theorem ids_snoc : ids (cs ++ [c]) = ids cs ++ [cs.length + 1] := by
  rw [ids, List.length_append, List.length_singleton, List.range'_1_concat, Nat.add_comm 1]
  rfl

theorem mem_ids : id ∈ ids cs ↔ 1 ≤ id ∧ id ≤ cs.length := by
  rw [ids, List.mem_range'_1]
  omega

theorem fdOf_snoc (h : id ∈ ids cs) : fdOf (cs ++ [c]) id = fdOf cs id := by
  have hlt : id - 1 < cs.length := by
    rw [mem_ids] at h
    omega
  rw [fdOf, fdOf, List.getElem?_append_left hlt]

theorem fdOf_last : fdOf (cs ++ [c]) (cs.length + 1) = c.1 := by
  rw [fdOf, Nat.add_sub_cancel, List.getElem?_concat_length]
  rfl

theorem map_fdOf : (ids cs).map (fdOf cs) = cs.map Prod.fst := by
  induction cs using List.reverseRecOn with
  | nil => rfl
  | append_singleton cs c ih =>
    have hkept : (ids cs).map (fdOf (cs ++ [c])) = (ids cs).map (fdOf cs) :=
      List.map_congr_left fun id hid => fdOf_snoc hid
    rw [ids_snoc, List.map_append, List.map_append, hkept, ih, List.map_singleton, fdOf_last,
      List.map_singleton]

theorem fdOf_mem (h : id ∈ ids cs) : ∃ c ∈ cs, c.1 = fdOf cs id := by
  have hmem : fdOf cs id ∈ cs.map Prod.fst := by
    rw [← map_fdOf]
    exact List.mem_map_of_mem h
  exact List.mem_map.mp hmem

theorem mem_init_live : id ∈ (init p cs).poller.liveChannels ↔ id ∈ ids cs := by
  induction cs using List.reverseRecOn with
  | nil => exact iff_of_false (Finset.notMem_empty _) List.not_mem_nil
  | append_singleton cs c ih =>
    rw [init_snoc, ids_snoc, List.mem_append, List.mem_singleton, ← ih, or_comm, ← init_id (p := p)]
    exact Finset.mem_insert

theorem init_channels_snoc : (init p (cs ++ [c])).channels =
    Function.update (init p cs).channels (cs.length + 1) (some ⟨cs.length + 1, c.1, c.2⟩) := by
  rw [init_snoc, ← init_id (p := p)]
  rfl

theorem of_init_channels (h : (init p cs).channels id = some ch) :
    ch.id = id ∧ id ∈ ids cs ∧ ch.fd = fdOf cs id := by
  induction cs using List.reverseRecOn with
  | nil => cases h
  | append_singleton cs c ih =>
    rw [init_channels_snoc] at h
    by_cases hid : id = cs.length + 1
    · rw [hid, Function.update_self] at h
      cases h
      rw [hid]
      exact ⟨rfl, by rw [ids_snoc]; simp, fdOf_last.symm⟩
    · rw [Function.update_of_ne hid] at h
      obtain ⟨hkey, hmem, hfd⟩ := ih h
      exact ⟨hkey, by rw [ids_snoc]; exact List.mem_append_left _ hmem, hfd.trans (fdOf_snoc hmem).symm⟩

theorem init_channels_exists (h : id ∈ ids cs) : ∃ ch, (init p cs).channels id = some ch := by
  induction cs using List.reverseRecOn with
  | nil => cases h
  | append_singleton cs c ih =>
    rw [init_channels_snoc]
    by_cases hid : id = cs.length + 1
    · rw [hid, Function.update_self]
      exact ⟨_, rfl⟩
    · rw [Function.update_of_ne hid]
      rw [ids_snoc, List.mem_append, List.mem_singleton] at h
      exact ih (h.resolve_right hid)

/-! ## Every run -/

/-- The channels that `removeChannel` was called for. -/
def removed (es : List Event) : List Nat :=
  es.filterMap fun
    | .close id _ => some id
    | .other => none

/-- The descriptors that were closed. -/
def closedFds (es : List Event) : List Int :=
  es.filterMap fun
    | .close _ fd => some fd
    | .other => none

theorem of_update {f : Nat → Option Channel} {k : Nat} {v : Option Channel}
    (h : Function.update f k v id = some ch) : (id = k ∧ v = some ch) ∨ (id ≠ k ∧ f id = some ch) := by
  by_cases hid : id = k
  · rw [hid, Function.update_self] at h
    exact .inl ⟨hid, h⟩
  · rw [Function.update_of_ne hid] at h
    exact .inr ⟨hid, h⟩

/-- A channel that exists is live and has its descriptor, or has been closed. -/
structure Inv (cs : List (Int × BitVec 16)) (s : State) : Prop where
  key : ∀ {id ch}, s.channels id = some ch → ch.id = id
  live : ∀ {id ch}, s.channels id = some ch →
    (id ∈ s.poller.liveChannels ∧ ch.fd = fdOf cs id) ∨ (id ∉ s.poller.liveChannels ∧ ch.fd = -1)
  mem : ∀ {id}, id ∈ s.poller.liveChannels → id ∈ ids cs

theorem inv_init : Inv cs (init p cs) where
  key h := (of_init_channels h).1
  live h := .inl ⟨mem_init_live.mpr (of_init_channels h).2.1, (of_init_channels h).2.2⟩
  mem := mem_init_live.mp

/-- Only a live channel has a positive descriptor. -/
theorem Inv.open (h : Inv cs s) (hch : s.channels id = some ch) (hfd : 0 < ch.fd) :
    id ∈ s.poller.liveChannels ∧ ch.fd = fdOf cs id := by
  rcases h.live hch with hlive | ⟨-, hclosed⟩
  · exact hlive
  · omega

theorem Inv.closed (h : Inv cs s) (hpos : ∀ id ∈ ids cs, 0 < fdOf cs id) (hch : s.channels id = some ch)
    (hfd : ch.fd ≤ 0) : ch.fd = -1 ∧ id ∉ s.poller.liveChannels := by
  rcases h.live hch with ⟨hlive, hopen⟩ | ⟨hdead, hclosed⟩
  · have hpos := hpos id (h.mem hlive)
    omega
  · exact ⟨hclosed, hdead⟩

theorem Inv.step (h : Inv cs s) (hs : Step s e s') : Inv cs s' := by
  cases hs with
  | loop | closed | callClose | callDelete | ret => exact ⟨h.key, h.live, h.mem⟩
  | @close k _ ch _ hframes hch hfd =>
    have hkey : ch.id = k := h.key hch
    refine ⟨fun {id ch'} hch' => ?_, fun {id ch'} hch' => ?_,
      fun hlive => h.mem (Finset.mem_of_mem_erase hlive)⟩
    · obtain ⟨rfl, heq⟩ | ⟨-, hch'⟩ := of_update hch'
      · cases heq
        exact hkey
      · exact h.key hch'
    · obtain ⟨rfl, heq⟩ | ⟨hid, hch'⟩ := of_update hch'
      · cases heq
        refine .inr ⟨?_, rfl⟩
        rw [← hkey]
        exact Finset.notMem_erase _ _
      · have hmem : id ∈ s.poller.liveChannels.erase ch.id ↔ id ∈ s.poller.liveChannels :=
          Finset.mem_erase.trans (and_iff_right fun heq => hid (heq.trans hkey))
        exact (h.live hch').imp (fun hlive => ⟨hmem.mpr hlive.1, hlive.2⟩)
          fun hclosed => ⟨fun hlive => hclosed.1 (hmem.mp hlive), hclosed.2⟩
  | deleted =>
    refine ⟨fun hch => ?_, fun hch => ?_, h.mem⟩
    · obtain ⟨-, hnone⟩ | ⟨-, hch⟩ := of_update hch
      · cases hnone
      · exact h.key hch
    · obtain ⟨-, hnone⟩ | ⟨-, hch⟩ := of_update hch
      · cases hnone
      · exact h.live hch

/-- Each `removeChannel` takes a live channel away, and goes with the `::close` of its descriptor. -/
structure History (cs : List (Int × BitVec 16)) (es : List Event) (s : State) : Prop where
  inv : Inv cs s
  nodup : (removed es).Nodup
  mem_iff : ∀ {id}, id ∈ removed es ↔ id ∈ ids cs ∧ id ∉ s.poller.liveChannels
  fds : closedFds es = (removed es).map (fdOf cs)
  pos : ∀ fd ∈ closedFds es, 0 < fd

theorem removed_snoc : removed (es ++ [e]) = removed es ++ removed [e] := List.filterMap_append

theorem closedFds_snoc : closedFds (es ++ [e]) = closedFds es ++ closedFds [e] := List.filterMap_append

/-- A step that closes a channel. -/
theorem Inv.close (h : Inv cs s) {fd : Int} (hs : Step s (.close id fd) s') :
    id ∈ s.poller.liveChannels ∧ 0 < fd ∧ fd = fdOf cs id ∧
      s'.poller.liveChannels = s.poller.liveChannels.erase id := by
  cases hs with
  | close hframes hch hfd =>
    obtain ⟨hlive, hfdOf⟩ := h.open hch hfd
    have hkey := h.key hch
    exact ⟨hkey.symm ▸ hlive, hfd, hkey.symm ▸ hfdOf, rfl⟩

/-- Every other step leaves the live channels alone. -/
theorem Step.live (hs : Step s .other s') : s'.poller.liveChannels = s.poller.liveChannels := by
  cases hs <;> rfl

theorem History.close (h : History cs es s) {fd : Int} (hs : Step s (.close id fd) s') :
    History cs (es ++ [.close id fd]) s' := by
  obtain ⟨hlive, hpos, rfl, herase⟩ := h.inv.close hs
  have hnew : id ∉ removed es := fun hmem => (h.mem_iff.mp hmem).2 hlive
  refine ⟨h.inv.step hs, ?_, fun {k} => ?_, ?_, ?_⟩
  · rw [removed_snoc]
    exact List.nodup_append_comm.mp (List.nodup_cons.mpr ⟨hnew, h.nodup⟩)
  · rw [removed_snoc, List.mem_append, h.mem_iff, herase, Finset.mem_erase]
    by_cases hk : k = id
    · rw [hk]
      exact iff_of_true (.inr (List.mem_singleton.mpr rfl)) ⟨h.inv.mem hlive, fun hmem => hmem.1 rfl⟩
    · have hother : k ∉ removed [.close id (fdOf cs id)] := fun hmem => hk (List.mem_singleton.mp hmem)
      rw [or_iff_left hother, and_iff_right hk]
  · rw [closedFds_snoc, removed_snoc, List.map_append, h.fds]
    rfl
  · intro fd hfd
    rw [closedFds_snoc] at hfd
    rcases List.mem_append.mp hfd with hfd | hfd
    · exact h.pos fd hfd
    · rw [List.mem_singleton.mp hfd]
      exact hpos

theorem History.other (h : History cs es s) (hs : Step s .other s') :
    History cs (es ++ [.other]) s' := by
  refine ⟨h.inv.step hs, ?_, fun {k} => ?_, ?_, ?_⟩
  · simpa [removed_snoc, removed] using h.nodup
  · rw [hs.live]
    have hiff : k ∈ removed es ↔ k ∈ ids cs ∧ k ∉ s.poller.liveChannels := h.mem_iff
    simpa [removed_snoc, removed] using hiff
  · simpa [removed_snoc, removed, closedFds_snoc, closedFds] using h.fds
  · simpa [closedFds_snoc, closedFds] using h.pos

theorem run_history (h : Run Step (init p cs) es s) : History cs es s := by
  induction h with
  | nil =>
    refine ⟨inv_init, List.nodup_nil, fun {id} => ?_, rfl, fun fd hfd => absurd hfd List.not_mem_nil⟩
    exact iff_of_false List.not_mem_nil fun ⟨hid, hlive⟩ => hlive (mem_init_live.mpr hid)
  | @snoc es s e s' _ hs ih =>
    cases e with
    | close id fd => exact ih.close hs
    | other => exact ih.other hs

/-- A channel on descriptor 0 stays live, even when it is deleted. -/
theorem zero_live (h : Run Step (init p cs) es s) (hid : id ∈ ids cs) (hzero : fdOf cs id = 0) :
    id ∈ s.poller.liveChannels := by
  have hhist := run_history h
  by_contra hgone
  have hmem : fdOf cs id ∈ closedFds es := by
    rw [hhist.fds]
    exact List.mem_map_of_mem (hhist.mem_iff.mpr ⟨hid, hgone⟩)
  have hpos := hhist.pos _ hmem
  omega

/-! ## Without descriptor 0 -/

/-- The channels of the calls in progress exist, as the live ones do. A channel that is being deleted has
been closed, unless its `close` is the innermost call. -/
structure Calls (channels : Nat → Option Channel) (live : Finset Nat) (frames : List Frame) : Prop where
  live : ∀ {id}, id ∈ live → ∃ ch, channels id = some ch
  tail : ∀ {id}, .close id ∉ frames.tail
  close : ∀ {id}, .close id ∈ frames → ∃ ch, channels id = some ch
  delete : ∀ {id}, .delete id ∈ frames →
    ∃ ch, channels id = some ch ∧ (.close id ∈ frames ∨ ch.fd = -1)
  once : frames.Pairwise fun f g => ∀ id, f = .delete id → g ≠ .delete id

variable {channels : Nat → Option Channel} {live : Finset Nat} {f : Frame} {n : Nat}

theorem Calls.nil (h : ∀ {id}, id ∈ live → ∃ ch, channels id = some ch) : Calls channels live [] :=
  ⟨h, List.not_mem_nil, fun hmem => absurd hmem List.not_mem_nil,
    fun hmem => absurd hmem List.not_mem_nil, .nil⟩

/-- A `close` that returns has found its channel closed, or has closed it. -/
theorem Calls.pop (h : Calls channels live (f :: frames))
    (hf : ∀ {id ch}, f = .close id → channels id = some ch → ch.fd = -1) : Calls channels live frames := by
  have hnone : ∀ {id}, .close id ∉ frames := h.tail
  refine ⟨h.live, fun hmem => hnone (List.mem_of_mem_tail hmem), fun hmem => absurd hmem hnone,
    fun {id} hmem => ?_, (List.pairwise_cons.mp h.once).2⟩
  obtain ⟨ch, hch, hclose | hfd⟩ := h.delete (List.mem_cons_of_mem f hmem)
  · have hhead : .close id = f := (List.mem_cons.mp hclose).resolve_right hnone
    exact ⟨ch, hch, .inr (hf hhead.symm hch)⟩
  · exact ⟨ch, hch, .inr hfd⟩

/-- A handler is called, or has gone on. -/
theorem Calls.handler (h : Calls channels live frames) (hnone : ∀ {id}, .close id ∉ frames) :
    Calls channels live (.handler n :: frames) := by
  refine ⟨h.live, hnone, fun hmem => absurd hmem (List.not_mem_cons_of_ne_of_not_mem nofun hnone),
    fun {id} hmem => ?_, List.pairwise_cons.mpr ⟨nofun, h.once⟩⟩
  · obtain ⟨ch, hch, hstate⟩ := h.delete ((List.mem_cons.mp hmem).resolve_left nofun)
    exact ⟨ch, hch, hstate.imp_left (List.mem_cons_of_mem _)⟩

theorem Calls.callClose (h : Calls channels live frames) (hnone : ∀ {id}, .close id ∉ frames)
    (hch : channels id = some ch) : Calls channels live (.close id :: frames) := by
  refine ⟨h.live, hnone, fun {k} hmem => ?_, fun {k} hmem => ?_, List.pairwise_cons.mpr ⟨nofun, h.once⟩⟩
  · rcases List.mem_cons.mp hmem with heq | hmem
    · cases heq
      exact ⟨ch, hch⟩
    · exact absurd hmem hnone
  · obtain ⟨ch, hch, hstate⟩ := h.delete ((List.mem_cons.mp hmem).resolve_left nofun)
    exact ⟨ch, hch, hstate.imp_left (List.mem_cons_of_mem _)⟩

theorem Calls.callDelete (h : Calls channels live frames) (hnone : ∀ {id}, .close id ∉ frames)
    (hch : channels id = some ch) (hnot : .delete id ∉ frames) :
    Calls channels live (.close id :: .delete id :: frames) := by
  have hnone' : ∀ {k}, .close k ∉ Frame.delete id :: frames :=
    List.not_mem_cons_of_ne_of_not_mem nofun hnone
  refine ⟨h.live, hnone', fun {k} hmem => ?_, fun {k} hmem => ?_, ?_⟩
  · rcases List.mem_cons.mp hmem with heq | hmem
    · cases heq
      exact ⟨ch, hch⟩
    · exact absurd hmem hnone'
  · rcases List.mem_cons.mp ((List.mem_cons.mp hmem).resolve_left nofun) with heq | hmem
    · cases heq
      exact ⟨ch, hch, .inl List.mem_cons_self⟩
    · obtain ⟨ch', hch', hstate⟩ := h.delete hmem
      exact ⟨ch', hch', hstate.imp_left fun hmem => absurd hmem hnone⟩
  · refine List.pairwise_cons.mpr ⟨nofun, List.pairwise_cons.mpr ⟨?_, h.once⟩⟩
    rintro g hg k heq rfl
    cases heq
    exact hnot hg

/-- `close` has taken the channel off the poller. -/
theorem Calls.closed {k : Nat} (h : Calls channels live (.close k :: frames)) :
    Calls (Function.update channels k (some { ch with fd := -1 })) (live.erase ch.id) frames := by
  have hnone : ∀ {id}, .close id ∉ frames := h.tail
  have hexists : ∀ {id}, (∃ ch, channels id = some ch) →
      ∃ ch', Function.update channels k (some { ch with fd := -1 }) id = some ch' := by
    rintro id ⟨ch', hch'⟩
    by_cases hid : id = k
    · rw [hid, Function.update_self]
      exact ⟨_, rfl⟩
    · rw [Function.update_of_ne hid]
      exact ⟨ch', hch'⟩
  refine ⟨fun hlive => hexists (h.live (Finset.mem_of_mem_erase hlive)),
    fun hmem => hnone (List.mem_of_mem_tail hmem), fun hmem => absurd hmem hnone, fun {id} hmem => ?_,
    (List.pairwise_cons.mp h.once).2⟩
  by_cases hid : id = k
  · rw [hid, Function.update_self]
    exact ⟨_, rfl, .inr rfl⟩
  · rw [Function.update_of_ne hid]
    obtain ⟨ch', hch', hclose | hfd⟩ := h.delete (List.mem_cons_of_mem _ hmem)
    · rcases List.mem_cons.mp hclose with heq | hmem
      · cases heq
        exact absurd rfl hid
      · exact absurd hmem hnone
    · exact ⟨ch', hch', .inr hfd⟩

/-- `~Channel` has ended for a channel that is not live. -/
theorem Calls.deleted {k : Nat} (h : Calls channels live (.delete k :: frames)) (hlive : k ∉ live) :
    Calls (Function.update channels k none) live frames := by
  have hpop : Calls channels live frames := h.pop nofun
  obtain ⟨hfirst, -⟩ := List.pairwise_cons.mp h.once
  refine ⟨fun {id} hid => ?_, hpop.tail, fun hmem => absurd hmem h.tail, fun {id} hmem => ?_, hpop.once⟩
  · rw [Function.update_of_ne fun heq : id = k => hlive (heq ▸ hid)]
    exact h.live hid
  · rw [Function.update_of_ne fun heq : id = k => hfirst _ hmem k rfl (congrArg _ heq)]
    exact hpop.delete hmem

theorem Calls.step (h : Calls s.channels s.poller.liveChannels s.frames) (hinv : Inv cs s)
    (hpos : ∀ id ∈ ids cs, 0 < fdOf cs id) (hs : Step s e s') :
    Calls s'.channels s'.poller.liveChannels s'.frames := by
  cases hs with
  | loop hframes hid =>
    rw [hframes] at h
    obtain ⟨ch, hch⟩ := h.live hid
    exact h.callClose List.not_mem_nil hch
  | close hframes hch hfd =>
    rw [hframes] at h
    exact h.closed.handler h.tail
  | closed hframes hch hfd =>
    rw [hframes] at h
    apply h.pop
    intro id ch' heq hch'
    cases heq
    cases hch.symm.trans hch'
    exact (hinv.closed hpos hch hfd).1
  | callClose hframes hch =>
    rw [hframes] at h
    exact ((h.pop nofun).handler h.tail).callClose (List.not_mem_cons_of_ne_of_not_mem nofun h.tail) hch
  | callDelete hframes hch hnot =>
    rw [hframes] at h hnot
    exact ((h.pop nofun).handler h.tail).callDelete (List.not_mem_cons_of_ne_of_not_mem nofun h.tail) hch
      (List.not_mem_cons_of_ne_of_not_mem nofun (List.not_mem_of_not_mem_cons hnot))
  | ret hframes =>
    rw [hframes] at h
    exact h.pop nofun
  | @deleted k _ hframes =>
    rw [hframes] at h
    obtain ⟨ch, hch, hclose | hfd⟩ := h.delete List.mem_cons_self
    · exact absurd ((List.mem_cons.mp hclose).resolve_left nofun) h.tail
    · exact h.deleted ((hinv.closed hpos hch (by omega)).2)

/-- What holds in every run. -/
structure Sound (cs : List (Int × BitVec 16)) (s : State) : Prop where
  inv : Inv cs s
  calls : Calls s.channels s.poller.liveChannels s.frames

theorem sound_init : Sound cs (init p cs) := by
  refine ⟨inv_init, ?_⟩
  rw [init_frames]
  exact .nil fun hlive => init_channels_exists (mem_init_live.mp hlive)

theorem Sound.step (h : Sound cs s) (hpos : ∀ id ∈ ids cs, 0 < fdOf cs id) (hs : Step s e s') :
    Sound cs s' :=
  ⟨h.inv.step hs, h.calls.step h.inv hpos hs⟩

/-- The run goes on until the loop of `~PollerEpoll` has ended. -/
theorem Sound.progress (h : Sound cs s) (hlast : ∀ e t, ¬Step s e t) :
    s.frames = [] ∧ s.poller.liveChannels = ∅ := by
  cases hframes : s.frames with
  | nil =>
    refine ⟨rfl, Finset.eq_empty_of_forall_notMem fun id hid => ?_⟩
    exact hlast _ _ (.loop hframes hid)
  | cons f frames =>
    exfalso
    cases f with
    | handler n => exact hlast _ _ (.ret hframes)
    | delete id => exact hlast _ _ (.deleted hframes)
    | close id =>
      have hmem : .close id ∈ s.frames := hframes ▸ List.mem_cons_self
      obtain ⟨ch, hch⟩ := h.calls.close hmem
      by_cases hfd : 0 < ch.fd
      · exact hlast _ _ (.close (n := 0) hframes hch hfd)
      · exact hlast _ _ (.closed hframes hch (Int.not_lt.mp hfd))

/-! ## The measure -/

/-- Whether the innermost call closes a live channel. -/
def closing (live : Finset Nat) : List Frame → Nat
  | .close id :: _ => if id ∈ live then 1 else 0
  | _ => 0

/-- What the calls may still do. -/
def weight : List Frame → Nat
  | [] => 0
  | .handler n :: frames => 3 * n + 1 + weight frames
  | .close _ :: frames | .delete _ :: frames => 1 + weight frames

/-- The live channels, and what the calls in progress may still do. A live channel whose `close` has been
called counts half. -/
def measure (live : Finset Nat) (frames : List Frame) : Nat × Nat :=
  (2 * live.card - closing live frames, weight frames)

theorem closing_live (h : id ∈ live) : closing live (.close id :: frames) = 1 := if_pos h

theorem lex_of_le {a b i j : Nat} (hle : a ≤ b) (hlt : i < j) :
    Prod.Lex (· < ·) (· < ·) (a, i) (b, j) := by
  rcases Nat.lt_or_eq_of_le hle with hlt' | rfl
  · exact .left _ _ hlt'
  · exact .right _ hlt

/-- The calls in progress may do less than before. -/
theorem measure_lt_of_weight {frames' : List Frame} (hzero : closing live frames = 0)
    (hweight : weight frames' < weight frames) :
    Prod.Lex (· < ·) (· < ·) (measure live frames') (measure live frames) := by
  apply lex_of_le
  · rw [hzero]
    exact Nat.sub_le _ _
  · exact hweight

theorem measure_pop (hzero : closing live (f :: frames) = 0) :
    Prod.Lex (· < ·) (· < ·) (measure live frames) (measure live (f :: frames)) := by
  apply measure_lt_of_weight hzero
  cases f <;> simp only [weight] <;> omega

theorem Sound.measure_lt (h : Sound cs s) (hpos : ∀ id ∈ ids cs, 0 < fdOf cs id) (hs : Step s e s') :
    Prod.Lex (· < ·) (· < ·) (measure s'.poller.liveChannels s'.frames)
      (measure s.poller.liveChannels s.frames) := by
  cases hs with
  | loop hframes hid =>
    have hcard : 0 < s.poller.liveChannels.card := Finset.card_pos.mpr ⟨_, hid⟩
    apply Prod.Lex.left
    rw [hframes, closing_live hid]
    exact Nat.sub_lt (Nat.mul_pos Nat.two_pos hcard) Nat.one_pos
  | @close k frames ch n hframes hch hfd =>
    obtain ⟨hlive, -⟩ := h.inv.open hch hfd
    have hcard : (s.poller.liveChannels.erase ch.id).card + 1 = s.poller.liveChannels.card := by
      rw [h.inv.key hch]
      exact Finset.card_erase_add_one hlive
    apply Prod.Lex.left
    rw [hframes, closing_live hlive, ← hcard]
    simp only [closing, PollerEpoll.removeChannel, PollerEpoll.closeFd]
    omega
  | closed hframes hch hfd =>
    rw [hframes]
    exact measure_pop (if_neg (h.inv.closed hpos hch hfd).2)
  | callClose hframes hch =>
    rw [hframes]
    apply measure_lt_of_weight rfl
    simp only [weight]
    omega
  | callDelete hframes hch hnot =>
    rw [hframes]
    apply measure_lt_of_weight rfl
    simp only [weight]
    omega
  | ret hframes | deleted hframes =>
    rw [hframes]
    exact measure_pop rfl

theorem terminates (hpos : ∀ id ∈ ids cs, 0 < fdOf cs id) : Terminates Step (init p cs) := by
  apply terminates_of_measure (Prod.lex Nat.lt_wfRel Nat.lt_wfRel).wf (I := Sound cs)
    (fun s => measure s.poller.liveChannels s.frames) sound_init
  intro s e s' h hs
  exact ⟨h.step hpos hs, h.measure_lt hpos hs⟩

/-- The loop of `~PollerEpoll` ends, whatever the handlers do. Then no channel is live, each has been
removed once, and just their descriptors have been closed, each once. -/
def ShutsDown (p : PollerEpoll) (cs : List (Int × BitVec 16)) : Prop :=
  Terminates Step (init p cs) ∧
  ∀ es s, Run Step (init p cs) es s → (∀ e t, ¬Step s e t) →
    s.frames = [] ∧ s.poller.liveChannels = ∅ ∧ (removed es).Perm (ids cs) ∧
      (closedFds es).Perm (cs.map Prod.fst) ∧ (closedFds es).Nodup

theorem ShutsDown.ne_zero (h : ShutsDown p cs) (hc : c ∈ cs) : c.1 ≠ 0 := by
  intro hzero
  obtain ⟨es, s, hrun, hlast⟩ := h.1.exists_last
  obtain ⟨-, hlive, -⟩ := h.2 es s hrun hlast
  have hmem : c.1 ∈ (ids cs).map (fdOf cs) := by
    rw [map_fdOf]
    exact List.mem_map_of_mem hc
  obtain ⟨id, hid, hfd⟩ := List.mem_map.mp hmem
  have hstays := zero_live hrun hid (hfd.trans hzero)
  rw [hlive] at hstays
  exact absurd hstays (Finset.notMem_empty id)

/-- **When the poller shuts down.** For channels on distinct descriptors from 0 on and handlers that close
and delete any of them, the loop ends, with every channel removed and every descriptor closed once,
exactly when no channel is on descriptor 0. -/
theorem shutsDown_iff (hnodup : (cs.map Prod.fst).Nodup) (hfds : ∀ c ∈ cs, 0 ≤ c.1) :
    ShutsDown p cs ↔ ∀ c ∈ cs, c.1 ≠ 0 := by
  refine ⟨fun h c hc => h.ne_zero hc, fun hne => ?_⟩
  have hpos : ∀ id ∈ ids cs, 0 < fdOf cs id := by
    intro id hid
    obtain ⟨c, hc, hfd⟩ := fdOf_mem hid
    have hle := hfds c hc
    have hne := hne c hc
    omega
  refine ⟨terminates hpos, fun es s hrun hlast => ?_⟩
  have hhist := run_history hrun
  have hsound : Sound cs s := hrun.invariant sound_init fun h hs => h.step hpos hs
  obtain ⟨hframes, hlive⟩ := hsound.progress hlast
  have hperm : (removed es).Perm (ids cs) := by
    refine (List.perm_ext_iff_of_nodup hhist.nodup (List.nodup_range' 1)).mpr fun id => ?_
    rw [hhist.mem_iff, hlive]
    exact and_iff_left (Finset.notMem_empty id)
  have hclosed : (closedFds es).Perm (cs.map Prod.fst) := by
    rw [hhist.fds, ← map_fdOf]
    exact hperm.map _
  exact ⟨hframes, hlive, hperm, hclosed, hclosed.nodup_iff.mpr hnodup⟩

/-- Two channels. -/
theorem shutsDown_iff_two : ShutsDown {} [(5, readEvent), (3, writeEvent)] :=
  (shutsDown_iff (by decide) (by decide)).mpr (by decide)

/-- With standard input as its channel the loop never ends. -/
theorem not_shutsDown : ¬∀ (p : PollerEpoll) (cs : List (Int × BitVec 16)), (cs.map Prod.fst).Nodup →
    (∀ c ∈ cs, 0 ≤ c.1) → ShutsDown p cs := by
  intro h
  have hshuts : ShutsDown {} [(0, readEvent)] := h _ _ (by decide) (by decide)
  exact hshuts.ne_zero List.mem_cons_self rfl

end NetLibrary.Shutdown
