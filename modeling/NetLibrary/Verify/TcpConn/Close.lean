import NetLibrary.Verify.Poller
import NetLibrary.Verify.TcpConn.Handlers

/-!
# The end of a connection

`cleanup` makes the state terminal and leaves the channel as it is: only `Channel::close` takes the
channel out of the poller. A connection that ends in another way remains registered
(`finished_not_removed`). `finished_removed` says that a connection leaves the poller in every run in
which `Channel::close` is what ends it, and then no `loop_once` reaches it any more (`closed_run`).
-/

namespace NetLibrary.TcpConn
open LTS PollerEpoll

variable {w w' : World} {ch : Channel} {p : PollRet} {r : ReadRet} {ctl : Ctl} {s s' : Sys}
  {e : Event} {es : List Event}

/-- `loop_once` calls a handler of the connection. -/
def Event.Dispatched : Event → Prop
  | .handleRead _ | .handleWrite _ => True
  | _ => False

/-- Between events, a connection that is closed or failed has a channel that is not in the poller and
whose descriptor is closed, and no event is dispatched to it in any continuation. -/
def LeavesPoller (s : Sys) : Prop := s.ctl = .user .event →
  s.w.conn.state = .closed ∨ s.w.conn.state = .failed →
  ∃ ch, s.w.conn.channel = some ch ∧ ch.fd = -1 ∧ ch.id ∉ s.w.poller.liveChannels ∧
    (∀ i ∈ s.w.poller.interest, i.ptr ≠ ch.id) ∧
    ∀ es s', Run Step s es s' → ∀ e ∈ es, ¬e.Dispatched

/-! ## The connection and its poller -/

/-- What the poller knows of the connection's channel. -/
structure Registered (w : World) (ch : Channel) : Prop where
  state : w.conn.state ≠ .invalid
  id : ch.id ≤ w.lastId
  owns : w.poller.Owns ch
  gone : ch.fd < 0 → ch.fd = -1 ∧ w.poller.Gone ch.id

/-- The invariant of a connection and its poller. No modelled function sets `destPort_`. -/
structure Attached (w : World) : Prop where
  destPort : w.conn.destPort ≤ 0
  knows : w.poller.Knows w.lastId
  channel : ∀ ch, w.conn.channel = some ch → Registered w ch

/-- The channel and the poller remain as they are. -/
structure Keeps (w w' : World) : Prop where
  poller : w'.poller = w.poller
  lastId : w'.lastId = w.lastId
  destPort : w'.conn.destPort = w.conn.destPort
  channel : w'.conn.channel = w.conn.channel
  state : w'.conn.state = .invalid → w.conn.state = .invalid

theorem Keeps.refl : Keeps w w := ⟨rfl, rfl, rfl, rfl, fun h => h⟩

theorem Keeps.trans {v : World} (h : Keeps w v) (h' : Keeps v w') : Keeps w w' :=
  ⟨h'.poller.trans h.poller, h'.lastId.trans h.lastId, h'.destPort.trans h.destPort,
    h'.channel.trans h.channel, fun hw => h.state (h'.state hw)⟩

theorem keeps_setInput {input : Buffer} : Keeps w (w.setInput input) :=
  ⟨rfl, rfl, rfl, rfl, fun h => h⟩

theorem keeps_setMsg {own : Bool} {msg : Buffer} : Keeps w (w.setMsg own msg) := by
  obtain ⟨_, hmsg⟩ := setMsg_input
  rw [hmsg]
  exact keeps_setInput

theorem Cleanup.keeps (h : Cleanup w w' ctl) : Keeps w w' := by
  cases h with
  | readcb => exact .refl
  | done =>
    refine ⟨rfl, rfl, rfl, rfl, fun hw => ?_⟩
    simp only [World.finishCleanup] at hw
    split at hw <;> cases hw

theorem Turned.keeps (h : Turned w ch r w' ctl) : Keeps w w' := by
  cases h with
  | more | blocked => exact keeps_setInput
  | ended _ hclean => exact keeps_setInput.trans hclean.keeps

theorem keeps_send {msg left : Buffer} (h : w.send msg = (w', left)) : Keeps w w' := by
  cases send_cases h with
  | absorbed => exact ⟨rfl, rfl, rfl, rfl, fun h => h⟩
  | direct | dropped => exact .refl

theorem Attached.keeps (h : Attached w) (hkeeps : Keeps w w') : Attached w' := by
  refine ⟨hkeeps.destPort ▸ h.destPort, ?_, fun ch hch => ?_⟩
  · rw [hkeeps.poller, hkeeps.lastId]
    exact h.knows
  · obtain ⟨hstate, hid, howns, hgone⟩ := h.channel ch (hkeeps.channel ▸ hch)
    refine ⟨fun hw => hstate (hkeeps.state hw), ?_, ?_, ?_⟩
    · rw [hkeeps.lastId]
      exact hid
    · rw [hkeeps.poller]
      exact howns
    · rw [hkeeps.poller]
      exact hgone

/-- A change of the poller that is not about the connection's channel. -/
theorem Attached.setPoller {poller : PollerEpoll} {lastId : Nat} (h : Attached w)
    (hknows : poller.Knows lastId) (hlast : w.lastId ≤ lastId)
    (howns : ∀ {ch : Channel}, w.conn.channel = some ch → w.poller.Owns ch → poller.Owns ch)
    (hgone : ∀ {ch : Channel}, w.conn.channel = some ch → w.poller.Gone ch.id → poller.Gone ch.id) :
    Attached { w with poller, lastId } := by
  refine ⟨h.destPort, hknows, fun ch hch => ?_⟩
  have hreg := h.channel ch hch
  refine ⟨hreg.state, Nat.le_trans hreg.id hlast, howns hch hreg.owns, fun hfd => ?_⟩
  obtain ⟨hclosed, hnone⟩ := hreg.gone hfd
  exact ⟨hclosed, hgone hch hnone⟩

theorem Attached.wait {evs : List Active} (h : Attached w) (hready : w.poller.Ready evs) :
    Attached { w with poller := w.poller.wait evs } :=
  h.setPoller (h.knows.wait hready) (Nat.le_refl _) (fun _ howns => howns)
    fun _ hgone => hgone.wait hready

theorem Attached.next {poller : PollerEpoll} {entry : Option Active} (h : Attached w)
    (hnext : w.poller.next = (poller, entry)) : Attached { w with poller } := by
  obtain rfl : w.poller.next.1 = poller := by rw [hnext]
  exact h.setPoller h.knows.next (Nat.le_refl _) (fun _ howns => howns) fun _ hgone => hgone.next

/-- A channel that draws its number draws another one than the connection's. -/
theorem Attached.id_ne (h : Attached w) (hch : w.conn.channel = some ch) : w.lastId + 1 ≠ ch.id := by
  have hle : ch.id ≤ w.lastId := (h.channel ch hch).id
  omega

theorem Attached.newChannel {fd : Int} {events : BitVec 16} (h : Attached w) :
    Attached (w.newChannel fd events).1 :=
  h.setPoller (h.knows.addChannel rfl) (Nat.le_succ _)
    (fun hch howns => howns.addChannel (h.id_ne hch)) fun hch hgone =>
    hgone.addChannel (h.id_ne hch)

theorem Attached.attach {fd : Int} (h : Attached w) (hfresh : w.Fresh fd) : Attached (w.attach fd) := by
  refine ⟨h.destPort, h.knows.addChannel rfl, fun ch hch => ?_⟩
  cases hch
  refine ⟨nofun, Nat.le_refl _, owns_addChannel h.knows rfl, fun hfd => ?_⟩
  exact absurd hfresh.1 (Int.not_le.mpr hfd)

theorem Attached.closeOther {other : Channel} (h : Attached w) : Attached (w.closeOther other) :=
  h.setPoller h.knows.detach (Nat.le_refl _) (fun _ howns => howns.detach) fun _ hgone => hgone.detach

/-- A change of the events of an open channel. -/
theorem Attached.updateChannel {other : Channel} (h : Attached w) (hch : w.conn.channel = some ch)
    (hid : other.id = ch.id) (hfd : other.fd = ch.fd) (hopen : 0 ≤ ch.fd) :
    Attached (w.updateChannel other) := by
  obtain ⟨hstate, hle, howns, -⟩ := h.channel ch hch
  have hle' : other.id ≤ w.lastId := hid ▸ hle
  refine ⟨h.destPort, h.knows.updateChannel hle', fun ch' hch' => ?_⟩
  cases hch'
  refine ⟨hstate, hle', howns.updateChannel hid hfd, fun hneg => ?_⟩
  exact absurd hopen (Int.not_le.mpr (hfd ▸ hneg))

theorem Attached.detached (h : Attached w) (hch : w.conn.channel = some ch) :
    Attached (w.detached ch) := by
  obtain ⟨hstate, hid, howns, -⟩ := h.channel ch hch
  have hgone : (w.poller.detach ch).Gone ch.id := gone_detach h.knows howns
  refine ⟨h.destPort, h.knows.detach, fun ch' hch' => ?_⟩
  cases hch'
  refine ⟨hstate, hid, fun i hi hptr => ?_, fun _ => ⟨rfl, hgone⟩⟩
  exact absurd hptr (hgone.interest i hi)

theorem Attached.handled {goOn : Ctl} (h : Attached w) (hch : w.conn.channel = some ch)
    (hhandled : Handled w ch p goOn w' ctl) : Attached w' := by
  cases hhandled with
  | connect _ hok =>
    have hopen : 0 ≤ ch.fd := Int.not_lt.mp fun hfd => not_succeeds hfd hok
    have hupdate : Attached (w.updateChannel (ch.enableReadWrite true false)) :=
      h.updateChannel hch rfl rfl hopen
    refine ⟨hupdate.destPort, hupdate.knows, fun ch' hch' => ?_⟩
    obtain ⟨-, hid, howns, hgone⟩ := hupdate.channel ch' hch'
    exact ⟨nofun, hid, howns, hgone⟩
  | fail _ _ hclean => exact h.keeps hclean.keeps
  | connected | other => exact h

theorem Attached.isendTurn {buf : List Cell} {sended sended' : Nat} {r : WriteRet} {more : Bool}
    (h : Attached w) (hch : w.conn.channel = some ch)
    (hfd : ch.fd < 0 → ∃ e, r = .error (.other e))
    (hturn : w.isendTurn ch buf sended r = (w', sended', more)) : Attached w' := by
  cases isendTurn_cases hturn with
  | bytes => exact h.keeps ⟨rfl, rfl, rfl, rfl, fun h => h⟩
  | none | interrupted | full | fail => exact h
  | enable =>
    have hopen : 0 ≤ ch.fd := by
      by_contra hneg
      obtain ⟨e, he⟩ := hfd (Int.not_le.mp hneg)
      cases he
    exact h.updateChannel hch rfl rfl hopen

theorem Attached.step (h : Attached s.w) (hs : Step s e s') : Attached s'.w := by
  cases hs with
  | attach _ hfresh => exact h.attach hfresh
  | onRead | useInput | readcbRet => exact h.keeps ⟨rfl, rfl, rfl, rfl, fun h => h⟩
  | sendDone _ hsend => exact h.keeps ((keeps_send hsend).trans keeps_setMsg)
  | send _ hsend => exact h.keeps (keeps_send hsend)
  | write hch hturn _ hfd => exact h.isendTurn hch hfd hturn
  | writeDone hch hturn _ hfd => exact (h.isendTurn hch hfd hturn).keeps keeps_setMsg
  | readcbCleanup => exact h.keeps Cleanup.done.keeps
  | wait _ hready => exact h.wait hready
  | handleRead hnext hch _ _ hhandle => exact (h.next hnext).handled hch (handleRead_cases hhandle)
  | handleWrite hnext hch _ _ _ hhandle =>
    exact (h.next hnext).handled hch (handleWrite_cases hhandle)
  | skip _ hnext | skipUnknown hnext => exact h.next hnext
  | read _ _ hturned => exact h.keeps (readTurn_cases hturned).keeps
  | close hch hclose =>
    rcases close_cases hclose with ⟨-, hhandled⟩ | ⟨-, rfl, -⟩
    · exact (h.detached hch).handled rfl hhandled
    · exact h
  | openOther => exact h.newChannel
  | closeOther => exact h.closeOther

theorem attached_init : Attached {} := ⟨by decide, knows_init, nofun⟩

theorem attached_run (h : Run Step {} es s) : Attached s.w :=
  h.invariant (I := fun s => Attached s.w) attached_init Attached.step

/-! ## After `Channel::close` -/

/-- A channel that is closed remains the connection's channel, and gets no event. -/
theorem closed_step (h : Attached s.w) (hch : s.w.conn.channel = some ch) (hfd : ch.fd < 0)
    (hs : Step s e s') : s'.w.conn.channel = some ch ∧ ¬e.Dispatched := by
  have hreg := h.channel ch hch
  have hgone : s.w.poller.Gone ch.id := (hreg.gone hfd).2
  have hnext : ∀ {poller : PollerEpoll} {entry : Active},
      s.w.poller.next = (poller, some entry) → entry.ptr ≠ some ch.id :=
    fun hnext => hgone.next_ptr (congrArg Prod.snd hnext)
  cases hs with
  | attach hattach => exact absurd (.inl ⟨h.destPort, hreg.state⟩) hattach
  | handleRead hactive hch' hptr =>
    cases hch.symm.trans hch'
    exact absurd hptr (hnext hactive)
  | handleWrite hactive hch' hptr =>
    cases hch.symm.trans hch'
    exact absurd hptr (hnext hactive)
  | onRead | useInput | readcbRet | readcbCleanup | wait | skip | skipUnknown | openOther | closeOther =>
    exact ⟨hch, id⟩
  | sendDone _ hsend => exact ⟨((keeps_send hsend).trans keeps_setMsg).channel.trans hch, id⟩
  | send _ hsend => exact ⟨(keeps_send hsend).channel.trans hch, id⟩
  | write hch' hturn _ herror =>
    cases hch.symm.trans hch'
    obtain ⟨_, rfl⟩ := herror hfd
    cases hturn
  | writeDone hch' hturn _ herror =>
    cases hch.symm.trans hch'
    obtain ⟨_, rfl⟩ := herror hfd
    cases hturn
    exact ⟨keeps_setMsg.channel.trans hch, id⟩
  | read _ _ hturned => exact ⟨(readTurn_cases hturned).keeps.channel.trans hch, id⟩
  | close hch' hclose =>
    cases hch.symm.trans hch'
    rcases close_cases hclose with ⟨hopen, -⟩ | ⟨-, rfl, -⟩
    · exact absurd hfd (Int.not_lt.mpr (Int.le_of_lt hopen))
    · exact ⟨hch, id⟩

theorem closed_run (h : Attached s.w) (hch : s.w.conn.channel = some ch) (hfd : ch.fd < 0)
    (hrun : Run Step s es s') : ∀ e ∈ es, ¬e.Dispatched := by
  suffices hinv : (Attached s'.w ∧ s'.w.conn.channel = some ch) ∧ ∀ e ∈ es, ¬e.Dispatched from hinv.2
  induction hrun with
  | nil => exact ⟨⟨h, hch⟩, fun _ => nofun⟩
  | snoc _ hs ih =>
    obtain ⟨⟨hattached, hchannel⟩, hevents⟩ := ih
    obtain ⟨hchannel', hevent⟩ := closed_step hattached hchannel hfd hs
    refine ⟨⟨hattached.step hs, hchannel'⟩, fun e hmem => ?_⟩
    rcases List.mem_append.mp hmem with hmem | hmem
    · exact hevents e hmem
    · rw [List.mem_singleton.mp hmem]
      exact hevent

/-! ## The terminal states -/

/-- The handshake succeeds, and a stream that is open neither ends nor fails. -/
def Healthy (s : Sys) : Event → Prop
  | .handleRead p | .handleWrite p => ∀ ch, s.w.conn.channel = some ch →
    s.w.conn.state = .handshaking → Succeeds ch p
  | .read r => ∀ ch, s.w.conn.channel = some ch → 0 ≤ ch.fd → ¬Ends r
  | _ => True

/-- `cleanup` waits for the read callback to return. -/
def Ctl.inCleanup : Ctl → Prop
  | .user c | .sending _ _ _ c => c = .readcb .cleanup
  | .reading => False

/-- `cleanup` has been called only for a channel that is closed. -/
def EndsClosed (w : World) (ctl : Ctl) : Prop :=
  w.conn.state = .closed ∨ w.conn.state = .failed ∨ ctl.inCleanup →
    ∃ ch, w.conn.channel = some ch ∧ ch.fd < 0

theorem endsClosed_of_open (hclosed : w.conn.state ≠ .closed) (hfailed : w.conn.state ≠ .failed)
    (hctl : ¬ctl.inCleanup) : EndsClosed w ctl := by
  rintro (hstate | hstate | hclean)
  · exact absurd hstate hclosed
  · exact absurd hstate hfailed
  · exact absurd hclean hctl

/-- The descriptor, the state and the place in `cleanup` remain as they are. -/
theorem EndsClosed.keeps {ctl' : Ctl} (h : EndsClosed w ctl)
    (hchannel : w'.conn.channel.map Channel.fd = w.conn.channel.map Channel.fd)
    (hstate : w'.conn.state = w.conn.state) (hctl : ctl'.inCleanup → ctl.inCleanup) :
    EndsClosed w' ctl' := by
  intro hend
  rw [hstate] at hend
  obtain ⟨ch, hch, hfd⟩ := h (hend.imp_right (Or.imp_right hctl))
  rw [hch] at hchannel
  obtain ⟨ch', hch', heq⟩ := Option.map_eq_some_iff.mp hchannel
  exact ⟨ch', hch', heq ▸ hfd⟩

/-- `cleanup` of a closed channel. -/
theorem Cleanup.endsClosed (h : Cleanup w w' ctl) (hch : w.conn.channel = some ch)
    (hfd : ch.fd < 0) : EndsClosed w' ctl :=
  fun _ => ⟨ch, h.keeps.channel.trans hch, hfd⟩

/-- A handler of a closed channel. -/
theorem Handled.endsClosed {goOn : Ctl} (h : Handled w ch p goOn w' ctl)
    (hch : w.conn.channel = some ch) (hfd : ch.fd < 0) : EndsClosed w' ctl := by
  cases h with
  | connect _ hok => exact absurd hok (not_succeeds hfd)
  | fail _ _ hclean => exact hclean.endsClosed hch hfd
  | connected | other => exact fun _ => ⟨ch, hch, hfd⟩

theorem EndsClosed.setMsg {own : Bool} {msg : Buffer} (h : EndsClosed w ctl) :
    EndsClosed (w.setMsg own msg) ctl := by
  obtain ⟨_, hmsg⟩ := setMsg_input
  rw [hmsg]
  exact h

theorem EndsClosed.setPoller {poller : PollerEpoll} (h : EndsClosed w ctl) :
    EndsClosed { w with poller } ctl := h

theorem EndsClosed.send {msg left : Buffer} (h : EndsClosed w ctl)
    (hsend : w.send msg = (w', left)) : EndsClosed w' ctl := by
  cases send_cases hsend with
  | absorbed => exact h.keeps rfl rfl fun h => h
  | direct | dropped => exact h

theorem EndsClosed.handled {goOn : Ctl} (h : EndsClosed w (.user .event))
    (hhandled : Handled w ch p goOn w' ctl) (hctl : ¬goOn.inCleanup)
    (hok : w.conn.state = .handshaking → Succeeds ch p) : EndsClosed w' ctl := by
  cases hhandled with
  | connect => exact endsClosed_of_open nofun nofun hctl
  | fail hstate hfail => exact absurd (hok hstate) hfail
  | connected => exact h.keeps rfl rfl fun hclean => absurd hclean hctl
  | other => exact h

theorem EndsClosed.isendTurn {buf : List Cell} {sended sended' : Nat} {r : WriteRet} {more : Bool}
    (h : EndsClosed w ctl) (hch : w.conn.channel = some ch)
    (hturn : w.isendTurn ch buf sended r = (w', sended', more)) : EndsClosed w' ctl := by
  cases isendTurn_cases hturn with
  | bytes | none | interrupted | full | fail => exact h
  | enable => exact h.keeps (by rw [hch]; rfl) rfl fun h => h

theorem EndsClosed.step (h : EndsClosed s.w s.ctl) (hok : Healthy s e) (hs : Step s e s') :
    EndsClosed s'.w s'.ctl := by
  cases hs with
  | attach => exact endsClosed_of_open nofun nofun nofun
  | onRead | useInput | wait | skip | skipUnknown | openOther | closeOther => exact h
  | sendDone _ hsend => exact (h.send hsend).setMsg
  | send _ hsend => exact (h.send hsend).keeps rfl rfl fun h => h
  | write hch hturn => exact h.isendTurn hch hturn
  | writeDone hch hturn =>
    exact ((h.isendTurn hch hturn).keeps rfl rfl fun h => h).setMsg
  | readcbRet => exact h.keeps rfl rfl nofun
  | readcbCleanup =>
    obtain ⟨ch, hch, hfd⟩ := h (.inr (.inr rfl))
    exact Cleanup.done.endsClosed hch hfd
  | handleRead _ hch _ _ hhandle =>
    exact h.setPoller.handled (handleRead_cases hhandle) nofun (hok _ hch)
  | handleWrite _ hch _ _ _ hhandle =>
    exact h.setPoller.handled (handleWrite_cases hhandle) nofun (hok _ hch)
  | @read w _ ch r _ hch _ hturned =>
    cases readTurn_cases hturned with
    | more => exact h.keeps rfl rfl fun h => h
    | blocked hafter =>
      refine h.keeps rfl rfl fun hclean => ?_
      rcases hafter with rfl | rfl <;> cases hclean
    | ended hend hclean =>
      apply hclean.endsClosed hch
      by_contra hopen
      exact hok ch hch (Int.not_lt.mp hopen) (hend.resolve_left hopen)
  | close hch hclose =>
    rcases close_cases hclose with ⟨-, hhandled⟩ | ⟨-, rfl, rfl⟩
    · exact hhandled.endsClosed rfl (by decide : (-1 : Int) < 0)
    · exact h

/-- **A finished connection leaves the poller.** In every run in which no handshake fails, and no
stream ends or fails while its channel is open, a connection that is closed or failed is out of the
poller for good. -/
theorem finished_removed (h : Run (guarded Healthy Step) {} es s) : LeavesPoller s := by
  intro hctl hstate
  have hrun : Run Step {} es s := h.mono fun hs => hs.2
  have hattached : Attached s.w := attached_run hrun
  have hends : EndsClosed s.w s.ctl := by
    refine h.invariant (I := fun s => EndsClosed s.w s.ctl) ?_ fun hends hs => hends.step hs.1 hs.2
    exact endsClosed_of_open nofun nofun nofun
  obtain ⟨ch, hch, hfd⟩ := hends (hstate.imp_right .inl)
  obtain ⟨hclosed, hgone⟩ := (hattached.channel ch hch).gone hfd
  exact ⟨ch, hch, hclosed, hgone.live, hgone.interest, fun _ _ hrest =>
    closed_run hattached hch hfd hrest⟩

/-- A connection that `Channel::close` ends. -/
theorem finished_removed_close : ∃ es s, Run (guarded Healthy Step) {} es s ∧
    s.ctl = .user .event ∧ s.w.conn.state = .closed ∧ LeavesPoller s := by
  have hrun : ∃ s, Run (guarded Healthy Step) {} [.attach 5, .wait [⟨some 1, 0x4⟩],
      .handleWrite ⟨1, 0x4⟩, .close ⟨0, 0⟩, .read (.data [])] s ∧
      s.ctl = .user .event ∧ s.w.conn.state = .closed := by
    refine ⟨?s, ?run, ?facts⟩
    case run =>
      refine .cons ⟨trivial, step_attach (by decide)⟩ ?_
      refine .cons ⟨trivial, step_wait List.mem_cons_self (by decide)⟩ ?_
      refine .cons ⟨?_, .handleWrite rfl rfl rfl rfl rfl rfl⟩ ?_
      · intro ch hch _
        cases hch
        exact ⟨rfl, rfl⟩
      refine .cons ⟨trivial, .close rfl rfl⟩ ?_
      refine .cons ⟨?_, .read rfl ?_ rfl⟩ ?_
      · intro ch hch hopen
        cases hch
        exact absurd hopen (by decide)
      · intro bytes hbytes
        cases hbytes
        exact Nat.zero_le _
      exact .nil
    case facts => decide
  obtain ⟨s, hrun, hctl, hstate⟩ := hrun
  exact ⟨_, s, hrun, hctl, hstate, finished_removed hrun⟩

/-- A handshake that fails leaves the channel in the poller, and its descriptor open. -/
theorem finished_not_removed : ¬∀ es s, Run Step {} es s → LeavesPoller s := by
  intro h
  have hrun : ∃ s, Run Step {} [.attach 5, .wait [⟨some 1, 0x4⟩], .handleWrite ⟨1, 0x14⟩] s ∧
      s.ctl = .user .event ∧ s.w.conn.state = .failed ∧ s.w.conn.channel = some ⟨1, 5, 0x5⟩ := by
    refine ⟨?s, ?run, ?facts⟩
    case run =>
      refine .cons (step_attach (by decide)) ?_
      refine .cons (step_wait List.mem_cons_self (by decide)) ?_
      refine .cons (.handleWrite rfl rfl rfl rfl rfl rfl) ?_
      exact .nil
    case facts => decide
  obtain ⟨s, hrun, hctl, hstate, hch⟩ := hrun
  obtain ⟨ch, hch', hfd, -⟩ := h _ s hrun hctl (.inr hstate)
  cases hch.symm.trans hch'
  cases hfd

end NetLibrary.TcpConn
