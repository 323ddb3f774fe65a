import NetLibrary.Verify.TcpConn.Order

/-!
# The pending output of a connection

`handleWrite` does nothing for a connected connection, so what is in `output_` then remains there,
and a write interest that is on remains on. `flushOk_iff` says what is left of the promise: it is
kept where there is nothing to do. `pending_flushed` says which steps lead out of there: a handshake
that succeeds while `output_` is not empty, and a `send` that the socket does not take at once.
-/

namespace NetLibrary.TcpConn
open LTS

variable {w w' : World} {ch : Channel} {p : PollRet} {r : ReadRet} {ctl next : Ctl} {s s' : Sys}
  {e : Event} {es : List Event}

/-- In a connected state a `handleWrite` writes all of `output_` and turns the write interest off,
and the interest is on only if `output_` is not empty or a `send` is under way. -/
def FlushOk (s : Sys) : Prop := s.w.conn.state = .connected →
  (s.w.conn.output.content ≠ [] → ∀ ch p w', s.w.conn.channel = some ch →
    s.w.handleWrite ch p = (w', .user .event) →
      w'.wire = s.w.wire ++ s.w.conn.output.content ∧ w'.conn.output.content = [] ∧
      ∃ ch', w'.conn.channel = some ch' ∧ ch'.writeEnable = false) ∧
  ∀ ch, s.w.conn.channel = some ch → ch.writeEnable = true →
    s.w.conn.output.content ≠ [] ∨ s.ctl.isSending = true

/-- Where `output_` is not empty, `handleWrite` leaves it so. -/
theorem flushOk_iff (hch : s.w.conn.channel = some ch) : FlushOk s ↔
    (s.w.conn.state = .connected →
      s.w.conn.output.content = [] ∧ (ch.writeEnable = true → s.ctl.isSending = true)) := by
  constructor
  · intro h hstate
    obtain ⟨hflush, hinterest⟩ := h hstate
    have hempty : s.w.conn.output.content = [] := by
      by_contra hne
      have hwrite : s.w.handleWrite ch ⟨1, writeEvent⟩ = (s.w, .user .event) := by
        rw [World.handleWrite, hstate]
      exact hne (hflush hne ch _ _ hch hwrite).2.1
    refine ⟨hempty, fun hwrite => ?_⟩
    exact (hinterest ch hch hwrite).resolve_left fun hne => hne hempty
  · intro h hstate
    obtain ⟨hempty, hinterest⟩ := h hstate
    refine ⟨fun hne => absurd hempty hne, fun ch' hch' hwrite => .inr (hinterest ?_)⟩
    rw [hch] at hch'
    cases hch'
    exact hwrite

/-- The handshake succeeds only when `output_` is empty, and the socket takes what is written
directly. -/
def Unhindered (s : Sys) : Event → Prop
  | .handleRead p | .handleWrite p => ∀ ch, s.w.conn.channel = some ch →
    s.w.conn.state = .handshaking → Succeeds ch p → s.w.conn.output.content = []
  | .write r => s.w.conn.state = .connected → r ≠ .error .EAGAIN
  | _ => True

/-- Nothing is pending in a connected state. -/
def Idle (w : World) : Prop := w.conn.state = .connected →
  w.conn.output.content = [] ∧ ∀ ch, w.conn.channel = some ch → ch.writeEnable = false

theorem writeEnable_enableReadWrite {readEnable : Bool} :
    (ch.enableReadWrite readEnable false).writeEnable = false := by
  have hmask : ∀ events : BitVec 16, events &&& ~~~writeEvent &&& writeEvent = 0 := by
    intro events
    rw [BitVec.and_assoc, BitVec.and_comm (~~~writeEvent)]
    simp [writeEvent]
  simp [Channel.enableReadWrite, Channel.enableWrite, Channel.writeEnable, hmask]

theorem Idle.setPoller {poller : PollerEpoll} (h : Idle w) : Idle { w with poller } := h

theorem Idle.setInput {input : Buffer} (h : Idle w) : Idle (w.setInput input) := h

theorem Idle.cleanup (h : Idle w) (hclean : Cleanup w w' ctl) : Idle w' := by
  cases hclean with
  | readcb => exact h
  | done =>
    intro hconn
    simp only [World.finishCleanup] at hconn
    split at hconn <;> cases hconn

theorem Idle.handled (h : Idle w) (hhandled : Handled w ch p next w' ctl)
    (hempty : w.conn.state = .handshaking → Succeeds ch p → w.conn.output.content = []) :
    Idle w' := by
  cases hhandled with
  | connect hstate hok =>
    refine fun _ => ⟨hempty hstate hok, fun ch' hch' => ?_⟩
    cases hch'
    exact writeEnable_enableReadWrite
  | fail _ _ hclean => exact h.cleanup hclean
  | connected | other => exact h

theorem Idle.detached (h : Idle w) (hch : w.conn.channel = some ch) : Idle (w.detached ch) := by
  intro hconn
  obtain ⟨hempty, hwrite⟩ := h hconn
  refine ⟨hempty, fun ch' hch' => ?_⟩
  cases hch'
  exact hwrite ch hch

theorem Idle.setMsg {own : Bool} {msg : Buffer} (h : Idle w) : Idle (w.setMsg own msg) := by
  obtain ⟨_, hmsg⟩ := setMsg_input
  rw [hmsg]
  exact h

theorem Idle.send {msg left : Buffer} (h : Idle w) (hsend : w.send msg = (w', left)) :
    Idle w' := by
  intro hconn
  cases send_cases hsend with
  | absorbed hch hwrite =>
    rw [(h hconn).2 _ hch] at hwrite
    cases hwrite
  | direct | dropped => exact h hconn

theorem Idle.isendTurn {buf : List Cell} {sended sended' : Nat} {r : WriteRet} {more : Bool}
    (h : Idle w) (hr : w.conn.state = .connected → r ≠ .error .EAGAIN)
    (hturn : w.isendTurn ch buf sended r = (w', sended', more)) : Idle w' := by
  cases isendTurn_cases hturn with
  | bytes | none | interrupted | full | fail => exact h
  | enable => exact fun hconn => absurd rfl (hr hconn)

theorem Idle.step (h : Idle s.w) (hok : Unhindered s e) (hs : Step s e s') : Idle s'.w := by
  cases hs with
  | attach => exact nofun
  | onRead | useInput | readcbRet | wait | skip | skipUnknown | openOther | closeOther => exact h
  | sendDone _ hsend => exact (h.send hsend).setMsg
  | send _ hsend => exact h.send hsend
  | write _ hturn => exact h.isendTurn hok hturn
  | writeDone _ hturn => exact (h.isendTurn hok hturn).setMsg
  | readcbCleanup => exact h.cleanup .done
  | handleRead _ hch _ _ hhandle => exact h.setPoller.handled (handleRead_cases hhandle) (hok _ hch)
  | handleWrite _ hch _ _ _ hhandle => exact h.setPoller.handled (handleWrite_cases hhandle) (hok _ hch)
  | read _ _ hturned =>
    cases readTurn_cases hturned with
    | more | blocked => exact h
    | ended _ hclean => exact h.setInput.cleanup hclean
  | close hch hclose =>
    rcases close_cases hclose with ⟨-, hhandled⟩ | ⟨-, rfl, -⟩
    · refine (h.detached hch).handled hhandled fun _ hok => absurd hok ?_
      exact not_succeeds (by decide : (-1 : Int) < 0)
    · exact h

/-- **Nothing is stranded in a run that is not hindered.** As long as the handshake succeeds with an
empty `output_` and the socket takes at once what is written directly, every state keeps the promise
about pending output. -/
theorem pending_flushed (h : Run (guarded Unhindered Step) {} es s) : FlushOk s := by
  have hidle : Idle s.w := h.invariant (I := fun s => Idle s.w) nofun fun hidle hs =>
    hidle.step hs.1 hs.2
  intro hstate
  obtain ⟨hempty, hwrite⟩ := hidle hstate
  refine ⟨fun hne => absurd hempty hne, fun ch hch hon => ?_⟩
  rw [hwrite ch hch] at hon
  cases hon

/-- A message that is sent after the handshake, and that the socket takes. -/
theorem pending_flushed_direct : ∃ es s, Run (guarded Unhindered Step) {} es s ∧
    s.w.conn.state = .connected ∧ s.w.wire = [some 97] ∧ FlushOk s := by
  have hrun : ∃ s, Run (guarded Unhindered Step) {} [.attach 5, .wait [⟨some 1, 0x4⟩],
      .handleWrite ⟨1, 0x4⟩, .send (oneByte 97) false, .write (.ret 1)] s ∧
      s.w.conn.state = .connected ∧ s.w.wire = [some 97] := by
    refine ⟨?s, ?run, ?facts⟩
    case run =>
      refine .cons ⟨trivial, step_attach (by decide)⟩ ?_
      refine .cons ⟨trivial, step_wait List.mem_cons_self (by decide)⟩ ?_
      refine .cons ⟨fun _ _ _ _ => rfl, .handleWrite rfl rfl rfl rfl rfl rfl⟩ ?_
      refine .cons ⟨trivial, .send (absurd · Bool.false_ne_true) rfl rfl (by decide)⟩ ?_
      refine .cons ⟨fun _ => by decide, .writeDone rfl rfl (.inr rfl) (absurd · (by decide))⟩ ?_
      exact .nil
    case facts => decide
  obtain ⟨s, hrun, hstate, hwire⟩ := hrun
  exact ⟨_, s, hrun, hstate, hwire, pending_flushed hrun⟩

/-- What was sent before the handshake is pending afterwards, with the write interest off. -/
theorem pending_not_flushed : ¬∀ es s, Run Step {} es s → FlushOk s := by
  intro h
  have hrun : ∃ s, Run Step {} [.attach 5, .send (oneByte 97) false, .wait [⟨some 1, 0x4⟩],
      .handleWrite ⟨1, 0x4⟩] s ∧ s.w.conn.state = .connected ∧
      s.w.conn.channel = some ⟨1, 5, 0x1⟩ ∧ s.w.conn.output.content = [some 97] := by
    refine ⟨?s, ?run, ?facts⟩
    case run =>
      refine .cons (step_attach (by decide)) ?_
      refine .cons (.sendDone (absurd · Bool.false_ne_true) rfl (.inr rfl)) ?_
      refine .cons (step_wait List.mem_cons_self (by decide)) ?_
      refine .cons (.handleWrite rfl rfl rfl rfl rfl rfl) ?_
      exact .nil
    case facts => decide
  obtain ⟨s, hrun, hstate, hch, houtput⟩ := hrun
  obtain ⟨hempty, -⟩ := (flushOk_iff hch).mp (h _ s hrun) hstate
  rw [houtput] at hempty
  cases hempty

/-! ## After the socket was full -/

theorem isendTurn_output {buf : List Cell} {sended sended' : Nat} {r : WriteRet} {more : Bool}
    (h : w.isendTurn ch buf sended r = (w', sended', more)) : w'.conn.output = w.conn.output := by
  cases isendTurn_cases h with
  | bytes | none | interrupted | full | enable | fail => rfl

/-- What a step does to `output_`: a message is added by `send`, if at all. -/
theorem step_output (hs : Step s e s') : s'.w.conn.output = s.w.conn.output ∨
    ∃ (msg : WFBuffer) (own : Bool), e = .send msg own ∧
      s'.w.conn.output = (s.w.conn.output.absorb msg.1).1 := by
  cases hs with
  | attach | onRead | useInput | readcbRet | readcbCleanup | wait | skip | skipUnknown | openOther
    | closeOther => exact .inl rfl
  | sendDone _ hsend =>
    rw [setMsg_frame.output]
    cases send_cases hsend with
    | absorbed => exact .inr ⟨_, _, rfl, rfl⟩
    | direct | dropped => exact .inl rfl
  | send _ hsend =>
    cases send_cases hsend with
    | absorbed => exact .inr ⟨_, _, rfl, rfl⟩
    | direct | dropped => exact .inl rfl
  | write _ hturn => exact .inl (isendTurn_output hturn)
  | writeDone _ hturn =>
    rw [setMsg_frame.output]
    exact .inl (isendTurn_output hturn)
  | handleRead _ _ _ _ hhandle => exact .inl (handleRead_cases hhandle).frame.output
  | handleWrite _ _ _ _ _ hhandle => exact .inl (handleWrite_cases hhandle).frame.output
  | read _ _ hturned => exact .inl (readTurn_cases hturned).frame.output
  | close _ hclose =>
    rcases close_cases hclose with ⟨-, hhandled⟩ | ⟨-, rfl, -⟩
    · exact .inl hhandled.frame.output
    · exact .inl rfl

theorem run_output_wf (h : Run Step {} es s) : s.w.conn.output.WF := by
  refine h.invariant (I := fun s => s.w.conn.output.WF) .init fun hwf hs => ?_
  rcases step_output hs with heq | ⟨msg, own, -, heq⟩
  · rw [heq]
    exact hwf
  · rw [heq]
    exact (Buffer.absorb_spec hwf msg.2).1

/-- The handshake is over, the write interest is on and nothing is being written. -/
structure Stalled (s : Sys) : Prop where
  output : s.w.conn.output.WF
  state : s.w.conn.state ≠ .invalid ∧ s.w.conn.state ≠ .handshaking
  interest : ∃ ch, s.w.conn.channel = some ch ∧ ch.writeEnable = true
  rest : s.ctl.isSending = false

/-- A handler of a connection after its handshake leaves the channel's events alone. -/
theorem stalled_handled {ctl₀ : Ctl} (hhandled : Handled w ch p next w' ctl) (hnext : next.isSending = false)
    (h : Stalled ⟨w, ctl₀⟩) : Stalled ⟨w', ctl⟩ := by
  have hrest := hhandled.not_sending hnext
  cases hhandled with
  | connect hstate => exact absurd hstate h.state.2
  | fail hstate => exact absurd hstate h.state.2
  | connected | other => exact ⟨h.output, h.state, h.interest, hrest⟩

theorem stalled_cleanup {ctl₀ : Ctl} (hclean : Cleanup w w' ctl) (h : Stalled ⟨w, ctl₀⟩) : Stalled ⟨w', ctl⟩ := by
  cases hclean with
  | readcb => exact ⟨h.output, h.state, h.interest, rfl⟩
  | done =>
    refine ⟨h.output, ?_, h.interest, rfl⟩
    simp only [World.finishCleanup, if_neg h.state.2]
    exact ⟨nofun, nofun⟩

/-- All that such a connection still does with a message is to keep it. -/
theorem Stalled.sendDone {msg : WFBuffer} {c : Caller} {left : Buffer} (h : Stalled ⟨w, .user c⟩) (own : Bool)
    (hsend : w.send msg = (w', left)) : Stalled ⟨w'.setMsg own left, .user c⟩ ∧ left.size = 0 ∧
      w'.wire = w.wire ∧ w'.conn.output.content = w.conn.output.content ++ msg.1.content := by
  obtain ⟨ch, hch, hwrite⟩ := h.interest
  have hinput : ∃ input, w'.setMsg own left = w'.setInput input := setMsg_input
  obtain ⟨input, hmsg⟩ := hinput
  cases send_cases hsend with
  | absorbed =>
    obtain ⟨hwf, hleft, hcontent, hnil, -⟩ := Buffer.absorb_spec h.output msg.2
    refine ⟨?_, (Buffer.content_eq_nil_iff hleft).mp hnil, rfl, hcontent⟩
    rw [hmsg]
    exact ⟨hwf, h.state, h.interest, rfl⟩
  | direct hch' hoff =>
    rw [hch] at hch'
    cases hch'
    rw [hwrite] at hoff
    cases hoff
  | dropped hnone =>
    rw [hch] at hnone
    cases hnone

theorem Stalled.step (h : Stalled s) (hs : Step s e s') : Stalled s' ∧ s'.w.wire = s.w.wire ∧
    s'.w.conn.output.content = s.w.conn.output.content ++ sent [e] := by
  have hsame : ∀ {w w' : World} {e : Event}, Frame w w' → sent [e] = [] → w'.wire = w.wire ∧
      w'.conn.output.content = w.conn.output.content ++ sent [e] := by
    intro w w' e hframe he
    rw [he, List.append_nil, hframe.output]
    exact ⟨hframe.wire, rfl⟩
  cases hs with
  | attach hattach =>
    obtain ⟨hinvalid, hshake⟩ := h.state
    have hno := not_or.mp hattach
    rcases Int.lt_or_le 0 _ with hport | hport
    · exact absurd ⟨hport, hshake⟩ hno.2
    · exact absurd ⟨hport, hinvalid⟩ hno.1
  | onRead | useInput | readcbRet | wait | skip | skipUnknown | openOther | closeOther =>
    exact ⟨⟨h.output, h.state, h.interest, rfl⟩, hsame ⟨rfl, rfl, fun h => h⟩ rfl⟩
  | sendDone _ hsend =>
    obtain ⟨hstalled, -, hwire, hcontent⟩ := h.sendDone _ hsend
    refine ⟨hstalled, setMsg_frame.wire.trans hwire, ?_⟩
    rw [setMsg_frame.output, hcontent]
    simp [sent]
  | send _ hsend _ hleft =>
    exact absurd (h.sendDone false hsend).2.1 hleft
  | write | writeDone => cases h.rest
  | readcbCleanup => exact ⟨stalled_cleanup .done h, hsame ⟨rfl, rfl, fun h => h⟩ rfl⟩
  | handleRead _ _ _ _ hhandle =>
    have hcases := handleRead_cases hhandle
    refine ⟨stalled_handled hcases rfl ⟨h.output, h.state, h.interest, h.rest⟩, hsame ?_ rfl⟩
    exact frame_poller.trans hcases.frame
  | handleWrite _ _ _ _ _ hhandle =>
    have hcases := handleWrite_cases hhandle
    refine ⟨stalled_handled hcases rfl ⟨h.output, h.state, h.interest, h.rest⟩, hsame ?_ rfl⟩
    exact frame_poller.trans hcases.frame
  | read _ _ hturned =>
    have hcases := readTurn_cases hturned
    refine ⟨?_, hsame hcases.frame rfl⟩
    cases hcases with
    | more | blocked => exact ⟨h.output, h.state, h.interest, rfl⟩
    | ended _ hclean => exact stalled_cleanup hclean ⟨h.output, h.state, h.interest, h.rest⟩
  | close hch hclose =>
    rcases close_cases hclose with ⟨-, hhandled⟩ | ⟨-, rfl, rfl⟩
    · refine ⟨stalled_handled hhandled rfl ⟨h.output, h.state, ⟨_, rfl, ?_⟩, h.rest⟩,
        hsame (frame_detached.trans hhandled.frame) rfl⟩
      obtain ⟨ch', hch', hwrite⟩ := h.interest
      rw [hch] at hch'
      cases hch'
      exact hwrite
    · exact ⟨h, hsame .refl rfl⟩

/-- **A socket that was full once stays silent.** When the write interest of a connection is on after the
handshake and no `send` is under way, the socket gets no byte in any continuation: every message that is sent
is added to `output_`. -/
theorem stalled_silent {es' : List Event} (hreach : Run Step {} es s)
    (hstate : s.w.conn.state ≠ .invalid ∧ s.w.conn.state ≠ .handshaking) (hch : s.w.conn.channel = some ch)
    (hwrite : ch.writeEnable = true) (hrest : s.ctl.isSending = false) (h : Run Step s es' s') :
    s'.w.wire = s.w.wire ∧ s'.w.conn.output.content = s.w.conn.output.content ++ sent es' := by
  have hstalled : Stalled s := ⟨run_output_wf hreach, hstate, ⟨ch, hch, hwrite⟩, hrest⟩
  suffices hrun : Stalled s' ∧ s'.w.wire = s.w.wire ∧
      s'.w.conn.output.content = s.w.conn.output.content ++ sent es' from hrun.2
  induction h with
  | nil => exact ⟨hstalled, rfl, (List.append_nil _).symm⟩
  | snoc _ hs ih =>
    obtain ⟨hprev, hwire, hcontent⟩ := ih
    obtain ⟨hnext, hwire', hcontent'⟩ := hprev.step hs
    refine ⟨hnext, hwire'.trans hwire, ?_⟩
    rw [hcontent', hcontent, sent_snoc, List.append_assoc]

/-- The socket is full when the first byte is sent, and what is sent after it is not written. -/
theorem stalled_silent_byte : ∃ es s es' s', Run Step {} es s ∧ Run Step s es' s' ∧ s'.w.wire = [some 97] ∧
    s'.w.conn.output.content = [some 98] := by
  have hrun : ∃ s, Run Step {} [.attach 5, .wait [⟨some 1, 0x4⟩], .handleWrite ⟨1, 0x4⟩, .send (oneByte 97) false,
      .write (.error .EAGAIN), .write (.ret 1)] s ∧ s.w.conn.state = .connected ∧
      s.w.conn.channel = some ⟨1, 5, 0x5⟩ ∧ s.ctl = .user .event ∧ s.w.wire = [some 97] ∧
      s.w.conn.output.content = [] := by
    refine ⟨?s, ?run, ?facts⟩
    case run =>
      refine .cons (step_attach (by decide)) ?_
      refine .cons (step_wait List.mem_cons_self (by decide)) ?_
      refine .cons (.handleWrite rfl rfl rfl rfl rfl rfl) ?_
      refine .cons (.send nofun rfl rfl (by decide)) ?_
      refine .cons (.write rfl rfl (by decide) (absurd · (by decide))) ?_
      refine .cons (.writeDone rfl rfl (.inr rfl) (absurd · (by decide))) ?_
      exact .nil
    case facts => decide
  obtain ⟨⟨w, ctl⟩, hrun, hstate, hch, rfl, hwire, houtput⟩ := hrun
  have hafter : w.conn.state ≠ .invalid ∧ w.conn.state ≠ .handshaking := by
    have hconn : w.conn.state = .connected := hstate
    rw [hconn]
    exact ⟨nofun, nofun⟩
  have hwrite : Channel.writeEnable ⟨1, 5, 0x5⟩ = true := by decide
  have hsend : Step ⟨w, .user .event⟩ (.send (oneByte 98) false)
      ⟨(w.send (oneByte 98)).1.setMsg false (w.send (oneByte 98)).2, .user .event⟩ := by
    refine .sendDone nofun rfl (.inr ?_)
    have hstalled : Stalled ⟨w, .user .event⟩ :=
      ⟨run_output_wf hrun, hafter, ⟨_, hch, hwrite⟩, rfl⟩
    exact (hstalled.sendDone false rfl).2.1
  have hsilent := stalled_silent hrun hafter hch hwrite rfl (.single hsend)
  rw [hwire, houtput] at hsilent
  exact ⟨_, _, _, _, hrun, .single hsend, hsilent⟩

end NetLibrary.TcpConn
