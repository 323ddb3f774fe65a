import NetLibrary.Model.Echo
import NetLibrary.Verify.TcpConn.Flush
import NetLibrary.Verify.TcpConn.Input

/-!
# What the echo server sends back

Nothing that a client writes is lost, doubled or reordered on its way through the server
(`echo_conserves`), so what the client reads is what it has written. It comes back at once as long as
the socket takes what is written to it (`echo_served`). The first `EAGAIN` ends this: what is read after
it stays in `output_`.
-/

namespace NetLibrary.Echo
open LTS TcpConn Buffer

variable {w w' : World} {ch : Channel} {p : PollRet} {r : ReadRet} {ctl next : Ctl} {s s' : State}
  {t u : Sys} {e : TcpConn.Event} {es : List Event} {called called' : Bool}

/-! ## What the connection holds -/

/-- `input_` without the bytes that `isend` has already written. -/
def unsent (s : Sys) : List Cell :=
  match s.ctl with
  | .sending _ sended _ _ => s.w.conn.input.content.drop sended
  | _ => s.w.conn.input.content

theorem unsent_eq (h : ctl.isSending = false) : unsent ⟨w, ctl⟩ = w.conn.input.content := by
  cases ctl with
  | sending => cases h
  | user | reading => rfl

/-- The connection between two steps. Its input comes after the handshake, and its output only after
write interest is on again. -/
structure Stored (w : World) : Prop where
  destPort : w.conn.destPort ≤ 0
  input : w.conn.input.WF
  output : w.conn.output.WF
  fresh : w.conn.state = .invalid ∨ w.conn.state = .handshaking →
    w.conn.input.content = [] ∧ w.conn.output.content = []
  held : w.conn.output.content ≠ [] → ∃ ch, w.conn.channel = some ch ∧ ch.writeEnable = true
  channel : w.conn.input.content ≠ [] → w.conn.channel ≠ none

theorem Stored.init : Stored {} where
  destPort := by decide
  input := .init
  output := .init
  fresh _ := ⟨rfl, rfl⟩
  held hne := absurd rfl hne
  channel hne := absurd rfl hne

theorem Stored.congr (h : Stored w) (hconn : w'.conn = w.conn) : Stored w' := by
  constructor
  case destPort => exact hconn ▸ h.destPort
  case input => exact hconn ▸ h.input
  case output => exact hconn ▸ h.output
  case fresh => exact hconn ▸ h.fresh
  case held => exact hconn ▸ h.held
  case channel => exact hconn ▸ h.channel

theorem Stored.cleanup (h : Stored w) (hclean : Cleanup w w' ctl) : Stored w' := by
  cases hclean with
  | readcb => exact h
  | done =>
    refine ⟨h.destPort, h.input, h.output, fun hstate => ?_, h.held, h.channel⟩
    rw [World.finishCleanup] at hstate
    split at hstate
    · rcases hstate with hstate | hstate
      · cases hstate
      · cases hstate
    · rcases hstate with hstate | hstate
      · cases hstate
      · cases hstate

/-- A handshake succeeds before anything is pending. -/
theorem Stored.handled (h : Stored w) (hhandled : Handled w ch p next w' ctl) : Stored w' := by
  cases hhandled with
  | connect hstate =>
    obtain ⟨-, hempty⟩ := h.fresh (.inr hstate)
    refine ⟨h.destPort, h.input, h.output, fun hstate => ?_, fun hne => absurd hempty hne, fun _ => nofun⟩
    rcases hstate with hstate | hstate
    · cases hstate
    · cases hstate
  | fail _ _ hclean => exact h.cleanup hclean
  | connected | other => exact h

theorem Stored.detached (h : Stored w) (hch : w.conn.channel = some ch) : Stored (w.detached ch) := by
  refine ⟨h.destPort, h.input, h.output, h.fresh, fun hne => ⟨_, rfl, ?_⟩, fun _ => nofun⟩
  obtain ⟨ch', hch', hwrite⟩ := h.held hne
  rw [hch] at hch'
  cases hch'
  exact hwrite

theorem Stored.setInput {input : Buffer} (h : Stored w) (hwf : input.WF)
    (hempty : w.conn.input.content = [] → input.content = [] ∨ w.conn.state = .connected)
    (hchannel : input.content ≠ [] → w.conn.channel ≠ none) : Stored (w.setInput input) := by
  refine ⟨h.destPort, hwf, h.output, fun hstate => ?_, h.held, hchannel⟩
  obtain ⟨hinput, houtput⟩ := h.fresh hstate
  refine ⟨(hempty hinput).resolve_right fun hconn => ?_, houtput⟩
  have hconn : (w.setInput input).conn.state = .connected := hconn
  rw [hconn] at hstate
  rcases hstate with hstate | hstate
  · cases hstate
  · cases hstate

/-- Where the loop thread can be. -/
def Fits (w : World) : Ctl → Prop
  | .sending msg _ own _ => own = true ∧ w.conn.input = msg ∧ w.conn.output.content = []
  | .reading => w.conn.state = .connected
  | .user _ => True

structure Kept (t : Sys) : Prop where
  stored : Stored t.w
  fits : Fits t.w t.ctl

/-- The users send their input, and leave it alone otherwise. -/
def SendsInput : TcpConn.Event → Prop
  | .send _ own => own = true
  | .useInput _ => False
  | _ => True

/-- What has come in, in the order in which it goes out. -/
def flow (t : Sys) : List Cell := t.w.wire ++ t.w.conn.output.content ++ unsent t

/-- What a step does to a connection that keeps its bytes in order. -/
structure Flows (t u : Sys) (bytes : List UInt8) : Prop where
  kept : Kept u
  flow : flow u = flow t ++ bytes.map some
  wire : t.w.wire <+: u.w.wire

theorem readBytes_eq : readBytes w e = (taken w e).map some := by
  cases e with
  | read r =>
    cases r with
    | error => rfl
    | data bytes =>
      cases hch : w.conn.channel with
      | none => simp [readBytes, taken, hch]
      | some ch =>
        by_cases hfd : 0 ≤ ch.fd
        · simp [readBytes, taken, hch, hfd]
        · simp [readBytes, taken, hch, hfd]
  | attach | onRead | send | write | useInput | readcbEnd | wait | handleRead | handleWrite | skip | close
    | openOther | closeOther => rfl

/-- A step that moves no bytes. -/
theorem Flows.quiet {ctl' : Ctl} (hstored : Stored w') (hfits : Fits w' ctl') (hframe : Frame w w')
    (hsame : SameBuffers w w') (hctl : ctl.isSending = false) (hctl' : ctl'.isSending = false) :
    Flows ⟨w, ctl⟩ ⟨w', ctl'⟩ [] := by
  refine ⟨⟨hstored, hfits⟩, ?_, ?_⟩
  · simp only [Echo.flow, unsent_eq hctl, unsent_eq hctl', hframe.wire, hframe.output, hsame.1, List.map_nil,
      List.append_nil]
  · simp only [hframe.wire]
    exact List.prefix_rfl

theorem fits_cleanup (h : Cleanup w w' ctl) : Fits w' ctl := by
  cases h with
  | readcb | done => trivial

theorem fits_handled (h : Handled w ch p next w' ctl) (hnext : next = .reading ∨ next = .user .event) :
    Fits w' ctl := by
  cases h with
  | connect =>
    rcases hnext with rfl | rfl
    · rfl
    · trivial
  | fail _ _ hclean => exact fits_cleanup hclean
  | connected hstate =>
    rcases hnext with rfl | rfl
    · exact hstate
    · trivial
  | other => trivial

/-- `handleRead` or `handleWrite`, with what it leaves of the poller. -/
theorem Flows.handled {v : World} (h : Stored v) (hframe : Frame w v) (hsame : SameBuffers w v)
    (hhandled : Handled v ch p next w' ctl) (hnext : next = .reading ∨ next = .user .event) {c : Caller} :
    Flows ⟨w, .user c⟩ ⟨w', ctl⟩ [] := by
  have hsending : next.isSending = false := by
    rcases hnext with rfl | rfl
    · rfl
    · rfl
  have hsame' := hhandled.same
  exact .quiet (h.handled hhandled) (fits_handled hhandled hnext) (hframe.trans hhandled.frame)
    ⟨hsame'.1.trans hsame.1, hsame'.2.trans hsame.2⟩ rfl (hhandled.not_sending hsending)

/-- `send` of the whole input to `output_`, or of an input that is empty. -/
theorem Flows.sendDone {msg : WFBuffer} {left : Buffer} {c : Caller} (h : Stored w)
    (hmsg : w.conn.input = msg) (hsend : w.send msg = (w', left))
    (hdone : w.conn.channel = none ∨ left.size = 0) :
    Flows ⟨w, .user c⟩ ⟨w'.setMsg true left, .user c⟩ [] := by
  cases send_cases hsend with
  | @absorbed ch hch hwrite =>
    obtain ⟨hwf, hleft, hcontent, hnil, -⟩ := absorb_spec h.output msg.2
    have hinput : w.conn.input.content = msg.1.content := congrArg Buffer.content hmsg
    refine ⟨⟨⟨h.destPort, hleft, hwf, fun hstate => ⟨hnil, ?_⟩, fun _ => ⟨ch, hch, hwrite⟩,
      fun hne => absurd hnil hne⟩, trivial⟩, ?_, List.prefix_rfl⟩
    · obtain ⟨hin, hout⟩ := h.fresh hstate
      exact hcontent.trans (by rw [hout, ← hinput, hin]; rfl)
    · simp only [Echo.flow, unsent, World.setMsg, if_pos, hcontent, hnil, hinput, List.append_assoc, List.map_nil,
        List.append_nil]
  | direct | dropped =>
    have hsame : w.setMsg true msg = w := by
      rw [World.setMsg, if_pos rfl, ← hmsg]
    rw [hsame]
    exact .quiet h trivial .refl ⟨rfl, rfl⟩ rfl rfl

/-- `send` writes directly only when `output_` is empty. -/
theorem Flows.send {msg : WFBuffer} {left : Buffer} {c : Caller} (h : Stored w)
    (hmsg : w.conn.input = msg) (hsend : w.send msg = (w', left)) (hch : w.conn.channel = some ch)
    (hleft : left.size ≠ 0) : Flows ⟨w, .user c⟩ ⟨w', .sending left 0 true c⟩ [] := by
  cases send_cases hsend with
  | absorbed =>
    obtain ⟨-, hwf, -, hcontent, -⟩ := absorb_spec h.output msg.2
    exact absurd ((content_eq_nil_iff hwf).mp hcontent) hleft
  | direct hch hwrite =>
    have hempty : w.conn.output.content = [] := by
      by_contra hne
      obtain ⟨ch', hch', hon⟩ := h.held hne
      rw [hch] at hch'
      cases hch'
      rw [hwrite] at hon
      cases hon
    refine ⟨⟨h, rfl, hmsg, hempty⟩, ?_, List.prefix_rfl⟩
    simp [Echo.flow, unsent]
  | dropped hnone =>
    rw [hch] at hnone
    cases hnone

/-- A turn of `isend`, after which it may go on. -/
theorem Flows.write {msg : Buffer} {sended sended' : Nat} {own more : Bool} {c : Caller} {r : WriteRet}
    (h : Kept ⟨w, .sending msg sended own c⟩)
    (hturn : w.isendTurn ch msg.content sended r = (w', sended', more)) :
    Flows ⟨w, .sending msg sended own c⟩ ⟨w', .sending msg sended' own c⟩ [] := by
  obtain ⟨hown, hmsg, hempty⟩ := h.fits
  have hstored := h.stored
  cases isendTurn_cases hturn with
  | @bytes n =>
    refine ⟨⟨⟨hstored.destPort, hstored.input, hstored.output, hstored.fresh, hstored.held, hstored.channel⟩, hown,
      hmsg, hempty⟩, ?_, List.prefix_append _ _⟩
    simp only at hempty hmsg
    simp only [Echo.flow, unsent, hempty, hmsg, List.append_nil, List.map_nil, List.append_assoc]
    rw [← List.drop_drop, List.take_append_drop]
  | none | interrupted | full | fail =>
    refine ⟨⟨hstored, hown, hmsg, hempty⟩, ?_, List.prefix_rfl⟩
    simp [Echo.flow, unsent]
  | enable =>
    refine ⟨⟨⟨hstored.destPort, hstored.input, hstored.output, hstored.fresh, fun hne => absurd hempty hne,
      fun _ => nofun⟩, hown, hmsg, hempty⟩, ?_, List.prefix_rfl⟩
    simp [Echo.flow, unsent, World.updateChannel]

/-- `isend` returns, and `send` takes out of the input what is written. -/
theorem Flows.consume {msg : Buffer} {sended : Nat} {own : Bool} {c : Caller}
    (h : Kept ⟨w, .sending msg sended own c⟩) :
    Flows ⟨w, .sending msg sended own c⟩ ⟨w.setMsg own (msg.consume sended), .user c⟩ [] := by
  obtain ⟨rfl, hmsg, -⟩ := h.fits
  have hmsg : w.conn.input = msg := hmsg
  have hwf : w.conn.input.WF := h.stored.input
  subst hmsg
  have hcontent := content_consume hwf (n := sended)
  refine ⟨⟨h.stored.setInput hwf.consume (fun hnil => .inl ?_) fun hne => h.stored.channel ?_, trivial⟩, ?_,
    List.prefix_rfl⟩
  · rw [hcontent, hnil, List.drop_nil]
  · intro hnil
    rw [hcontent, hnil, List.drop_nil] at hne
    exact hne rfl
  · simp only [Echo.flow, unsent, World.setMsg, if_pos, hcontent, List.map_nil, List.append_nil]

theorem Flows.trans_nil {v : Sys} {bytes : List UInt8} (h : Flows t u []) (h' : Flows u v bytes) :
    Flows t v bytes := by
  refine ⟨h'.kept, ?_, h.wire.trans h'.wire⟩
  rw [h'.flow, h.flow, List.map_nil, List.append_nil]

theorem fits_turned (h : Turned w ch r w' ctl) (hstate : w.conn.state = .connected) : Fits w' ctl := by
  cases h with
  | more => exact hstate
  | blocked => trivial
  | ended _ hclean => exact fits_cleanup hclean

theorem Stored.turned (h : Stored w) (hch : w.conn.channel = some ch) (hturned : Turned w ch r w' ctl)
    (hinput : w'.conn.input.WF) (hstate : w.conn.state = .connected) : Stored w' := by
  have hset : ∀ {input : Buffer}, input.WF → Stored (w.setInput input) := fun hwf =>
    h.setInput hwf (fun _ => .inr hstate) fun _ => by simp [hch]
  cases hturned with
  | more | blocked => exact hset hinput
  | ended _ hclean => 
    have hsame := hclean.same.1
    rw [hsame] at hinput
    exact (hset hinput).cleanup hclean

/-- A turn of the loop in `handleRead` takes bytes out of the stream. -/
theorem Flows.read (h : Kept ⟨w, .reading⟩) (hch : w.conn.channel = some ch)
    (hlen : ∀ bytes, r = .data bytes → bytes.length ≤ w.conn.input.makeRoom'.space)
    (hturn : w.readTurn ch r = (w', ctl)) : Flows ⟨w, .reading⟩ ⟨w', ctl⟩ (taken w (.read r)) := by
  have hstate : w.conn.state = .connected := h.fits
  have hturned := readTurn_cases hturn
  obtain ⟨hwf, -, hcontent⟩ := readTurn_input h.stored.input hch hlen hturn
  have hframe := hturned.frame
  refine ⟨⟨h.stored.turned hch hturned hwf hstate, fits_turned hturned hstate⟩, ?_, ?_⟩
  · simp only [Echo.flow, unsent_eq hturned.not_sending, hframe.wire, hframe.output, hcontent, readBytes_eq,
      List.append_assoc]
    rfl
  · simp only [hframe.wire]
    exact List.prefix_rfl

/-- Every step of the connection moves its bytes in order. -/
theorem Kept.step (h : Kept t) (hsends : SendsInput e) (hs : TcpConn.Step t e u) :
    Flows t u (taken t.w e) := by
  have hstored := h.stored
  cases hs with
  | @attach w fd hattach =>
    obtain ⟨hinput, houtput⟩ := hstored.fresh (.inl (Classical.not_not.mp fun hne =>
      hattach (.inl ⟨hstored.destPort, hne⟩)))
    refine .quiet ⟨hstored.destPort, hstored.input, hstored.output, fun _ => ⟨hinput, houtput⟩,
      fun hne => absurd houtput hne, fun _ => nofun⟩ trivial ⟨rfl, rfl, fun _ => nofun⟩ ⟨rfl, rfl⟩ rfl rfl
  | onRead =>
    exact .quiet ⟨hstored.destPort, hstored.input, hstored.output, hstored.fresh, hstored.held,
      hstored.channel⟩ trivial ⟨rfl, rfl, fun h => h⟩ ⟨rfl, rfl⟩ rfl rfl
  | sendDone hown hsend hdone =>
    obtain rfl : _ = true := hsends
    exact .sendDone hstored (hown rfl) hsend hdone
  | send hown hsend hch hleft =>
    obtain rfl : _ = true := hsends
    exact .send hstored (hown rfl) hsend hch hleft
  | write _ hturn => exact .write h hturn
  | writeDone _ hturn =>
    have hwrite := Flows.write h hturn
    exact hwrite.trans_nil (.consume hwrite.kept)
  | useInput => exact hsends.elim
  | readcbRet => exact .quiet hstored trivial .refl ⟨rfl, rfl⟩ rfl rfl
  | readcbCleanup =>
    exact .quiet (hstored.cleanup .done) trivial ⟨rfl, rfl, fun h => h⟩ ⟨rfl, rfl⟩ rfl rfl
  | wait | skip | skipUnknown =>
    exact .quiet (hstored.congr rfl) trivial ⟨rfl, rfl, fun h => h⟩ ⟨rfl, rfl⟩ rfl rfl
  | openOther | closeOther =>
    exact .quiet (hstored.congr rfl) trivial ⟨rfl, rfl, fun h => h⟩ ⟨rfl, rfl⟩ rfl rfl
  | handleRead _ _ _ _ hhandle =>
    refine .handled ?_ frame_poller ⟨rfl, rfl⟩ (handleRead_cases hhandle) (.inl rfl)
    exact hstored.congr rfl
  | handleWrite _ _ _ _ _ hhandle =>
    refine .handled ?_ frame_poller ⟨rfl, rfl⟩ (handleWrite_cases hhandle) (.inr rfl)
    exact hstored.congr rfl
  | read hch hlen hturn => exact .read h hch hlen hturn
  | close hch hclose =>
    rcases close_cases hclose with ⟨-, hcases⟩ | ⟨-, rfl, rfl⟩
    · exact .handled (hstored.detached hch) frame_detached ⟨rfl, rfl⟩ hcases (.inl rfl)
    · exact .quiet hstored trivial .refl ⟨rfl, rfl⟩ rfl rfl

/-! ## The client -/

structure Inv (s : State) : Prop where
  kept : Kept s.server
  flow : flow s.server ++ s.up.map some = s.sent.map some
  received : s.received <+: s.server.w.wire

theorem Callback.sendsInput (h : Callback called ctl e called') : SendsInput e := by
  cases h with
  | send => rfl
  | ret | wait | handleRead | handleWrite | skip | readImp | writeImp | close | openOther | closeOther =>
    trivial

theorem Inv.init : Inv {} := ⟨⟨.init, trivial⟩, rfl, List.prefix_rfl⟩

theorem Inv.step {ev : Event} (h : Inv s) (hs : Step s ev s') : Inv s' := by
  cases hs with
  | write =>
    refine ⟨h.kept, ?_, h.received⟩
    simp only [List.map_append]
    rw [← List.append_assoc, h.flow]
  | read => exact ⟨h.kept, h.flow, List.take_prefix _ _⟩
  | addcon hattach hread =>
    have hflows := h.kept.step (e := .attach _) trivial hattach
    have hflows' := hflows.trans_nil (hflows.kept.step (e := .onRead) trivial hread)
    refine ⟨hflows'.kept, ?_, h.received.trans hflows'.wire⟩
    simp only [hflows'.flow, taken, List.map_nil, List.append_nil]
    exact h.flow
  | server hcall hs hup =>
    have hflows := h.kept.step hcall.sendsInput hs
    refine ⟨hflows.kept, ?_, h.received.trans hflows.wire⟩
    simp only [hflows.flow, List.append_assoc]
    rw [← List.map_append, ← hup]
    exact h.flow

theorem run_inv (h : Run Step {} es s) : Inv s := h.invariant .init Inv.step

/-! ## A socket that takes what is written -/

/-- Each call of `writeImp` writes something or is interrupted. -/
def Accepts : Event → Prop
  | .server (.write r) => (∃ n, r = .ret n ∧ 0 < n) ∨ r = .error .EINTR
  | _ => True

/-- What is left of the input at each place. The callback is called for an input that is not empty, and
when it has called `send` nothing is left. -/
def Answered (called : Bool) (w : World) : Ctl → Prop
  | .user .event => called = false ∧ w.conn.input.content = []
  | .user (.readcb _) => (w.conn.state = .connected ∨ w.conn.input.content = []) ∧
    (called = true → w.conn.input.content = [])
  | .reading => called = false
  | .sending _ _ _ c => called = true ∧ c ≠ .event

/-- The callback is set as long as the connection can read. -/
def HasCallback (w : World) : Prop :=
  w.conn.state = .handshaking ∨ w.conn.state = .connected → w.conn.readcb = true

structure Served (s : State) : Prop where
  idle : Idle s.server.w
  output : s.server.w.conn.output.content = []
  readcb : HasCallback s.server.w
  answered : Answered s.called s.server.w s.server.ctl

theorem Served.init : Served {} where
  idle := nofun
  output := rfl
  readcb hstate := by
    rcases hstate with hstate | hstate
    · cases hstate
    · cases hstate
  answered := ⟨rfl, rfl⟩

/-- With the callback set, `cleanup` and `handleRead` leave for the loop only with an empty input. -/
theorem cleanup_rest (hwf : w.conn.input.WF) (hcb : w.conn.readcb = true)
    (h : w.cleanup = (w', .user .event)) : w'.conn.input.content = [] := by
  rw [World.cleanup] at h
  split at h
  · cases h
  · rename_i hempty
    cases h
    refine (content_eq_nil_iff hwf).mpr ?_
    simpa [hcb] using hempty

theorem readTurn_rest (hwf : w.conn.input.WF) (hcb : w.conn.readcb = true)
    (h : w.readTurn ch r = (w', .user .event)) : w'.conn.input.content = [] := by
  have hroom : (w.setInput w.conn.input.makeRoom').conn.input.WF := hwf.makeRoom'
  rw [World.readTurn] at h
  generalize (if 0 ≤ ch.fd then r else .data []) = r' at h
  have hcleanup : World.cleanup (w.setInput w.conn.input.makeRoom') = (w', .user .event) →
      w'.conn.input.content = [] := cleanup_rest hroom hcb
  cases r' with
  | error e =>
    cases e with
    | EINTR => cases h
    | EAGAIN =>
      simp only [hcb, Bool.true_and] at h
      by_cases hsize : w.conn.input.makeRoom'.size = 0
      · simp only [hsize] at h
        cases h
        exact (content_eq_nil_iff hroom).mpr hsize
      · rw [if_pos (by simpa using hsize)] at h
        cases h
    | other => exact hcleanup h
  | data bytes =>
    cases bytes with
    | nil => exact hcleanup h
    | cons => cases h

theorem HasCallback.cleanup (h : HasCallback w) (hclean : Cleanup w w' ctl) : HasCallback w' := by
  cases hclean with
  | readcb => exact h
  | done =>
    intro hstate
    rw [World.finishCleanup] at hstate
    split at hstate
    · rcases hstate with hstate | hstate
      · cases hstate
      · cases hstate
    · rcases hstate with hstate | hstate
      · cases hstate
      · cases hstate

theorem HasCallback.handled (h : HasCallback w) (hhandled : Handled w ch p next w' ctl) : HasCallback w' := by
  cases hhandled with
  | connect hstate => exact fun _ => h (.inl hstate)
  | fail _ _ hclean => exact h.cleanup hclean
  | connected | other => exact h

theorem HasCallback.turned (h : HasCallback w) (hturned : Turned w ch r w' ctl) : HasCallback w' := by
  cases hturned with
  | more | blocked => exact h
  | @ended input _ _ _ hclean =>
    have hset : HasCallback (w.setInput input) := h
    exact hset.cleanup hclean

theorem answered_handled (h : Handled w ch p next w' ctl) (hnext : next = .reading ∨ next = .user .event)
    (hempty : w.conn.input.content = []) : Answered false w' ctl := by
  have hinput : w'.conn.input.content = [] := by rw [h.same.1, hempty]
  have hanswered : ∀ {ctl : Ctl}, ctl = .reading ∨ ctl = .user .event → Answered false w' ctl := by
    rintro _ (rfl | rfl)
    · rfl
    · exact ⟨rfl, hinput⟩
  cases h with
  | connect | connected => exact hanswered hnext
  | fail _ _ hclean =>
    cases hclean with
    | readcb => exact ⟨.inr hinput, nofun⟩
    | done => exact ⟨rfl, hinput⟩
  | other => exact ⟨rfl, hinput⟩

theorem answered_turned (h : Turned w ch r w' ctl) (hstate : w.conn.state = .connected)
    (hrest : ctl = .user .event → w'.conn.input.content = []) : Answered false w' ctl := by
  cases h with
  | more => rfl
  | blocked hafter =>
    rcases hafter with rfl | rfl
    · exact ⟨rfl, hrest rfl⟩
    · exact ⟨.inl hstate, nofun⟩
  | ended _ hclean =>
    cases hclean with
    | readcb => exact ⟨.inl hstate, nofun⟩
    | done => exact ⟨rfl, hrest rfl⟩

/-- A handler that is called for an event finds an empty input. -/
theorem Served.handled {v : World} {up : List UInt8} (h : Served s) (hctl : s.server.ctl = .user .event)
    (hidle : Idle v) (hsame : SameBuffers s.server.w v) (hcb : HasCallback v)
    (hhandled : Handled v ch p next w' ctl)
    (hfresh : v.conn.state = .handshaking → Succeeds ch p → v.conn.output.content = [])
    (hnext : next = .reading ∨ next = .user .event) :
    Served { s with server := ⟨w', ctl⟩, up } := by
  have hanswered : Answered s.called s.server.w s.server.ctl := h.answered
  rw [hctl] at hanswered
  obtain ⟨hcalled, hempty⟩ := hanswered
  constructor
  case idle => exact hidle.handled hhandled hfresh
  case output => rw [hhandled.same.2, hsame.2, h.output]
  case readcb => exact hcb.handled hhandled
  case answered =>
    simp only [hcalled]
    exact answered_handled hhandled hnext (hsame.1 ▸ hempty)

/-- The state and the callback are as they were. -/
theorem HasCallback.congr (h : HasCallback w) (hstate : w'.conn.state = w.conn.state)
    (hcb : w'.conn.readcb = w.conn.readcb) : HasCallback w' := by
  rw [HasCallback, hstate, hcb]
  exact h

/-- `send` leaves nothing in the input that it does not write directly, and nothing in `output_`. -/
theorem Served.sendDone {msg : WFBuffer} {left : Buffer} {after : After} {up : List UInt8} (h : Served s)
    (hstored : Stored s.server.w) (hctl : s.server.ctl = .user (.readcb after))
    (hmsg : s.server.w.conn.input = msg)
    (hsend : s.server.w.send msg = (w', left)) (hdone : s.server.w.conn.channel = none ∨ left.size = 0) :
    Served { s with server := ⟨w'.setMsg true left, .user (.readcb after)⟩, called := true, up } := by
  have hkeeps : (w'.setMsg true left).conn.output = w'.conn.output ∧
      (w'.setMsg true left).conn.state = w'.conn.state ∧
      (w'.setMsg true left).conn.readcb = w'.conn.readcb := setMsg_state
  obtain ⟨hout, hst, hrcb⟩ := hkeeps
  obtain ⟨hstate, hcb⟩ := send_state hsend
  have hempty : s.server.w.conn.state = .connected ∨ s.server.w.conn.input.content = [] := by
    have hanswered := h.answered
    rw [hctl] at hanswered
    exact hanswered.1
  have hleft : left.content = [] ∧ w'.conn.output.content = [] := by
    cases send_cases hsend with
    | absorbed hch hwrite =>
      obtain ⟨-, -, hcontent, hnil, -⟩ := absorb_spec hstored.output msg.2
      refine ⟨hnil, hcontent.trans ?_⟩
      rcases hempty with hconn | hinput
      · rw [(h.idle hconn).2 _ hch] at hwrite
        cases hwrite
      · rw [h.output, ← hmsg, hinput]
        rfl
    | direct hch =>
      have hsize : msg.1.size = 0 := hdone.resolve_left (by simp [hch])
      exact ⟨(content_eq_nil_iff msg.2).mpr hsize, h.output⟩
    | dropped hch =>
      refine ⟨?_, h.output⟩
      by_contra hne
      exact hstored.channel (by rwa [hmsg]) hch
  constructor
  case idle => exact (h.idle.send hsend).setMsg
  case output => rw [hout]; exact hleft.2
  case readcb => exact h.readcb.congr (hst.trans hstate) (hrcb.trans hcb)
  case answered => exact ⟨.inr hleft.1, fun _ => hleft.1⟩

/-- A call of `writeImp` in a run that is not hindered. -/
theorem Served.write {msg : Buffer} {sended sended' : Nat} {own more : Bool} {c : Caller} {r : WriteRet}
    {up : List UInt8} (h : Served s) (hctl : s.server.ctl = .sending msg sended own c)
    (hr : Accepts (.server (.write r)))
    (hturn : s.server.w.isendTurn ch msg.content sended r = (w', sended', more)) :
    Served { s with server := ⟨w', .sending msg sended' own c⟩, up } ∧ more = true := by
  obtain ⟨hsame, hstate, hcb⟩ := isendTurn_state hturn
  have hsoft : Soft r ∧ r ≠ .error .EAGAIN := by
    rcases hr with ⟨n, rfl, hpos⟩ | rfl
    · exact ⟨hpos, nofun⟩
    · exact ⟨trivial, nofun⟩
  have hanswered := h.answered
  rw [hctl] at hanswered
  refine ⟨?_, (isendTurn_soft hturn hsoft.1).1⟩
  constructor
  case idle => exact h.idle.isendTurn (fun _ => hsoft.2) hturn
  case output => rw [hsame.2, h.output]
  case readcb => exact h.readcb.congr hstate hcb
  case answered => exact hanswered

/-- All of the input is written. -/
theorem Served.consume {msg : Buffer} {own : Bool} {c : Caller} (h : Served s) (hkept : Kept s.server)
    (hctl : s.server.ctl = .sending msg msg.size own c) :
    Served { s with server := ⟨s.server.w.setMsg own (msg.consume msg.size), .user c⟩ } := by
  obtain ⟨⟨w, ctl⟩, called, sent, up, received⟩ := s
  cases hctl
  obtain ⟨rfl, hmsg, -⟩ := hkept.fits
  have hmsg : w.conn.input = msg := hmsg
  have hwf : msg.WF := hmsg ▸ hkept.stored.input
  have hnil : (msg.consume msg.size).content = [] := by
    rw [content_consume hwf, ← length_content hwf, List.drop_length]
  refine ⟨h.idle.setMsg, h.output, h.readcb, ?_⟩
  cases c with
  | event => exact absurd rfl h.answered.2
  | readcb => exact ⟨.inr hnil, fun _ => hnil⟩

/-- `handleRead` calls the callback if it has read something. -/
theorem Served.read {up : List UInt8} (h : Served s) (hkept : Kept s.server) (hctl : s.server.ctl = .reading)
    (hturn : s.server.w.readTurn ch r = (w', ctl)) : Served { s with server := ⟨w', ctl⟩, up } := by
  have hturned := readTurn_cases hturn
  have hstate : s.server.w.conn.state = .connected := by
    have hfits := hkept.fits
    rw [hctl] at hfits
    exact hfits
  have hcalled : s.called = false := by
    have hanswered := h.answered
    rw [hctl] at hanswered
    exact hanswered
  constructor
  case idle =>
    cases hturned with
    | more | blocked => exact h.idle
    | ended _ hclean => exact h.idle.setInput.cleanup hclean
  case output => rw [hturned.frame.output, h.output]
  case readcb => exact h.readcb.turned hturned
  case answered =>
    simp only [hcalled]
    refine answered_turned hturned hstate fun hrest => ?_
    rw [hrest] at hturn
    exact readTurn_rest hkept.stored.input (h.readcb (.inr hstate)) hturn

theorem Served.server {e : TcpConn.Event} {up : List UInt8} (h : Served s) (hkept : Kept s.server)
    (hok : Accepts (.server e)) (hcall : Callback s.called s.server.ctl e called)
    (hs : TcpConn.Step s.server e t) :
    Served { s with server := t, called, up } := by
  obtain ⟨⟨w, ctl⟩, called₀, sent, up₀, received⟩ := s
  have hstored := hkept.stored
  cases hs with
  | attach | onRead | useInput => cases hcall
  | sendDone hown hsend hdone =>
    cases hcall
    exact h.sendDone hstored rfl (hown rfl) hsend hdone
  | send _ hsend hch hleft =>
    cases hcall
    cases send_cases hsend with
    | @absorbed =>
      obtain ⟨-, hwf, -, hcontent, -⟩ := absorb_spec hstored.output (Subtype.prop _)
      exact absurd ((content_eq_nil_iff hwf).mp hcontent) hleft
    | direct => exact ⟨h.idle, h.output, h.readcb, rfl, Caller.noConfusion⟩
    | dropped hnone =>
      rw [hch] at hnone
      cases hnone
  | write _ hturn =>
    cases hcall
    exact (h.write rfl hok hturn).1
  | writeDone _ hturn hdone =>
    cases hcall
    have hwritten : Served ⟨_, _, sent, up, received⟩ ∧ _ := h.write rfl hok hturn
    obtain ⟨hserved, rfl⟩ := hwritten
    obtain rfl := hdone.resolve_left nofun
    exact hserved.consume (Flows.write hkept hturn).kept rfl
  | readcbRet =>
    cases hcall
    exact ⟨h.idle, h.output, h.readcb, rfl, h.answered.2 rfl⟩
  | readcbCleanup =>
    cases hcall
    exact ⟨h.idle.cleanup .done, h.output, h.readcb.cleanup .done, rfl, h.answered.2 rfl⟩
  | wait | skip | skipUnknown | openOther | closeOther =>
    cases hcall
    exact ⟨h.idle, h.output, h.readcb, h.answered⟩
  | handleRead _ hch _ _ hhandle =>
    cases hcall
    refine h.handled rfl ?_ ?_ ?_ (handleRead_cases hhandle) (fun _ _ => h.output) (.inl rfl)
    · exact h.idle.setPoller
    · exact ⟨rfl, rfl⟩
    · exact h.readcb
  | handleWrite _ hch _ _ _ hhandle =>
    cases hcall
    refine h.handled rfl ?_ ?_ ?_ (handleWrite_cases hhandle) (fun _ _ => h.output) (.inr rfl)
    · exact h.idle.setPoller
    · exact ⟨rfl, rfl⟩
    · exact h.readcb
  | read hch hlen hturn =>
    cases hcall
    exact h.read hkept rfl hturn
  | close hch hclose =>
    cases hcall
    rcases close_cases hclose with ⟨-, hcases⟩ | ⟨-, rfl, rfl⟩
    · exact h.handled rfl (h.idle.detached hch) ⟨rfl, rfl⟩ h.readcb hcases (fun _ _ => h.output) (.inl rfl)
    · exact ⟨h.idle, h.output, h.readcb, h.answered⟩

theorem Served.step {ev : Event} (h : Served s) (hinv : Inv s) (hok : Accepts ev) (hs : Step s ev s') :
    Served s' := by
  cases hs with
  | write | read => exact ⟨h.idle, h.output, h.readcb, h.answered⟩
  | addcon hattach hread =>
    obtain ⟨⟨w, ctl⟩, called, sent, up, received⟩ := s
    cases hattach
    cases hread
    exact ⟨nofun, h.output, fun _ => rfl, h.answered⟩
  | server hcall hs => exact h.server hinv.kept hok hcall hs

theorem run_served (h : Run (guarded (fun _ ev => Accepts ev) Step) {} es s) : Inv s ∧ Served s := by
  refine h.invariant (I := fun s => Inv s ∧ Served s) ⟨.init, .init⟩ ?_
  rintro s ev t ⟨hinv, hserved⟩ ⟨hok, hs⟩
  exact ⟨hinv.step hs, hserved.step hinv hok hs⟩

/-! ## A run -/

/-- The callback calls `send` with a write interest that is off. -/
theorem step_send {c : Caller} (hwf : w.conn.input.WF) (hch : w.conn.channel = some ch)
    (hoff : ch.writeEnable = false) (hsize : w.conn.input.size ≠ 0) : TcpConn.Step ⟨w, .user c⟩
      (.send ⟨w.conn.input, hwf⟩ true) ⟨w, .sending w.conn.input 0 true c⟩ := by
  refine .send (fun _ => rfl) ?_ hch hsize
  rw [World.send, hch]
  simp [hoff]

/-- Two bytes come one by one, and the callback is called. -/
theorem callback_run : ∃ s, Run (guarded (fun _ ev => Accepts ev) Step) {} [.write [97, 98], .addcon 5,
      .server (.wait [⟨some 1, 0x5⟩]), .server (.handleRead ⟨1, 0x4⟩), .server (.read (.data [97])),
      .server (.read (.data [98])), .server (.read (.error .EAGAIN))] s ∧
    s.server.ctl = .user (.readcb .ret) ∧ s.called = false ∧ s.sent = [97, 98] ∧ s.up = [] ∧ s.received = [] ∧
    s.server.w.conn.channel = some ⟨1, 5, 0x1⟩ ∧ s.server.w.conn.input.content = [some 97, some 98] ∧
    s.server.w.wire = [] := by
  refine ⟨?s, ?run, ?facts⟩
  case run =>
    have hlen : ∀ {x : UInt8} {n : Nat}, 0 < n → ∀ bytes, ReadRet.data [x] = .data bytes → bytes.length ≤ n := by
      rintro x n hpos bytes ⟨⟩
      exact hpos
    refine .cons ⟨trivial, .write⟩ ?_
    refine .cons ⟨trivial, .addcon (step_attach (by decide)) (.onRead rfl)⟩ ?_
    refine .cons ⟨trivial, .server .wait (.wait (by decide) ?ready) rfl⟩ ?_
    case ready => exact ready_single (i := ⟨5, 1, 0x5⟩) (by decide) (by decide)
    refine .cons ⟨trivial, .server .handleRead (.handleRead rfl rfl rfl rfl rfl) rfl⟩ ?_
    refine .cons ⟨trivial, .server .readImp (.read rfl (hlen (by decide)) rfl) rfl⟩ ?_
    refine .cons ⟨trivial, .server .readImp (.read rfl (hlen (by decide)) rfl) rfl⟩ ?_
    refine .cons ⟨trivial, .server .readImp (.read rfl nofun rfl) rfl⟩ ?_
    exact .nil
  case facts => decide

/-- What came is sent back byte by byte, and the client reads the first one. -/
theorem echo_run : ∃ es s, Run (guarded (fun _ ev => Accepts ev) Step) {} es s ∧ s.server.ctl = .user .event ∧
    s.sent = [97, 98] ∧ s.up = [] ∧ s.received = [some 97] := by
  obtain ⟨⟨⟨w, ctl⟩, called, sent, up, received⟩, hrun, rfl, rfl, rfl, rfl, rfl, hch, hcontent, hwire⟩ :=
    callback_run
  have hch : w.conn.channel = some ⟨1, 5, 0x1⟩ := hch
  have hcontent : w.conn.input.content = [some 97, some 98] := hcontent
  have hwire : w.wire = [] := hwire
  have hwf : w.conn.input.WF := (run_served hrun).1.kept.stored.input
  have hsize : w.conn.input.size = 2 := by rw [← length_content hwf, hcontent]; rfl
  have hopen : ∀ n : Nat, (Channel.mk 1 5 0x1).fd < 0 → ∃ e, WriteRet.ret n = .error (.other e) := 
    fun _ hlt => absurd hlt (by decide)
  have hsend := step_send (c := .readcb .ret) hwf hch (by decide) (by rw [hsize]; decide)
  have hpos : ∃ n, WriteRet.ret 1 = .ret n ∧ 0 < n := ⟨1, rfl, Nat.one_pos⟩
  refine ⟨_ ++ [.server (.send ⟨w.conn.input, hwf⟩ true), .server (.write (.ret 1)), .server (.write (.ret 1)),
    .server .readcbEnd, .read 1], ?s, hrun.append ?run, ?facts⟩
  case run =>
    refine .cons ⟨trivial, .server .send hsend rfl⟩ ?_
    refine .cons ⟨.inl hpos, .server .writeImp (.write hch rfl ?_ (hopen 1)) rfl⟩ ?_
    · rw [hsize]
      decide
    refine .cons ⟨.inl hpos, .server .writeImp (.writeDone hch rfl (.inr hsize.symm) (hopen 1)) rfl⟩ ?_
    refine .cons ⟨trivial, .server .ret .readcbRet rfl⟩ ?_
    refine .cons ⟨trivial, .read ?read⟩ ?_
    case read => simp [World.setMsg, hcontent, hwire]
    exact .nil
  case facts => simp [World.setMsg, hcontent, hwire]

/-! ## The echo -/

/-- **The echo loses nothing.** Whatever the socket, the poller and the other channels do, and wherever the
streams are cut, what is on the wire, then `output_`, what is unsent of `input_` and what is on its way to the
server are together what the client has written, in order, and what the client has read is the first part of
it. -/
theorem echo_conserves (h : Run Step {} es s) :
    s.server.w.wire ++ s.server.w.conn.output.content ++ unsent s.server ++ s.up.map some = s.sent.map some ∧
    s.received <+: s.sent.map some := by
  have hinv := run_inv h
  have hflow := hinv.flow
  refine ⟨hflow, hinv.received.trans ?_⟩
  rw [← hflow, flow, List.append_assoc, List.append_assoc]
  exact List.prefix_append _ _

theorem echo_conserves_two : ∃ es s, Run Step {} es s ∧ s.received = [some 97] ∧
    s.received <+: s.sent.map some := by
  obtain ⟨es, s, hrun, -, -, -, hreceived⟩ := echo_run
  have hrun : Run Step {} es s := hrun.mono fun hs => hs.2
  exact ⟨es, s, hrun, hreceived, (echo_conserves hrun).2⟩

/-- **The echo is complete.** As long as the socket takes something of what is written, whenever no handler
is running everything that has been read is on the wire, and the rest of what the client has written is on
its way. -/
theorem echo_served (h : Run (guarded (fun _ ev => Accepts ev) Step) {} es s)
    (hrest : s.server.ctl = .user .event) : s.server.w.wire ++ s.up.map some = s.sent.map some := by
  obtain ⟨hinv, hserved⟩ := run_served h
  have hanswered := hserved.answered
  rw [hrest] at hanswered
  obtain ⟨-, hempty⟩ := hanswered
  have hflow := hinv.flow
  rwa [flow, hserved.output, unsent, hrest, hempty, List.append_nil, List.append_nil] at hflow

theorem echo_served_two : ∃ es s, Run (guarded (fun _ ev => Accepts ev) Step) {} es s ∧
    s.sent = [97, 98] ∧ s.server.w.wire = [some 97, some 98] := by
  obtain ⟨es, s, hrun, hrest, hsent, hup, -⟩ := echo_run
  have hserved := echo_served hrun hrest
  rw [hsent, hup, List.map_nil, List.append_nil] at hserved
  exact ⟨es, s, hrun, hsent, hserved⟩

end NetLibrary.Echo
