import NetLibrary.Verify.Buffer.Content
import NetLibrary.Verify.TcpConn.Handlers

/-!
# The order of the output of a connection

The socket's bytes and then `output_` are what was sent, in the order of the calls, as long as `send`
does not overtake `output_`: it does when the write interest is off and `output_` is not empty, which
is so after a handshake before which something was sent (`send_not_ordered`). `send_order` says that
this is the only way to lose the order.
-/

namespace NetLibrary.TcpConn
open LTS Buffer

variable {w w' : World} {ch : Channel} {p : PollRet} {r : ReadRet} {ctl next : Ctl} {s s' : Sys}
  {e : Event} {es : List Event}

/-! ## What the handlers leave alone -/

/-- No byte is written or added to `output_`, and a channel remains a channel. -/
structure Frame (w w' : World) : Prop where
  wire : w'.wire = w.wire
  output : w'.conn.output = w.conn.output
  channel : w.conn.channel ≠ none → w'.conn.channel ≠ none

theorem Frame.refl : Frame w w := ⟨rfl, rfl, fun h => h⟩

theorem Frame.trans {v : World} (h : Frame w v) (h' : Frame v w') : Frame w w' :=
  ⟨h'.wire.trans h.wire, h'.output.trans h.output, fun hw => h'.channel (h.channel hw)⟩

theorem frame_setInput {input : Buffer} : Frame w (w.setInput input) := ⟨rfl, rfl, fun h => h⟩

theorem frame_poller {poller : PollerEpoll} : Frame w { w with poller } :=
  ⟨rfl, rfl, fun h => h⟩

theorem frame_detached : Frame w (w.detached ch) := ⟨rfl, rfl, fun _ => nofun⟩

theorem Cleanup.frame (h : Cleanup w w' ctl) : Frame w w' := by
  cases h with
  | readcb => exact .refl
  | done => exact ⟨rfl, rfl, fun h => h⟩

theorem Handled.frame (h : Handled w ch p next w' ctl) : Frame w w' := by
  cases h with
  | connect => exact ⟨rfl, rfl, nofun⟩
  | fail _ _ hclean => exact hclean.frame
  | connected | other => exact .refl

theorem Turned.frame (h : Turned w ch r w' ctl) : Frame w w' := by
  cases h with
  | more | blocked => exact ⟨rfl, rfl, fun h => h⟩
  | ended _ hclean => exact frame_setInput.trans hclean.frame

theorem setMsg_frame {own : Bool} {msg : Buffer} : Frame w (w.setMsg own msg) := by
  obtain ⟨_, hmsg⟩ := setMsg_input
  rw [hmsg]
  exact frame_setInput

/-- `send` is under way in `isend`. -/
def Ctl.isSending : Ctl → Bool
  | .sending .. => true
  | _ => false

theorem Cleanup.not_sending (h : Cleanup w w' ctl) : ctl.isSending = false := by
  cases h <;> rfl

theorem Handled.not_sending (h : Handled w ch p next w' ctl) (hnext : next.isSending = false) :
    ctl.isSending = false := by
  cases h with
  | connect | connected => exact hnext
  | fail _ _ hclean => exact hclean.not_sending
  | other => rfl

theorem Turned.not_sending (h : Turned w ch r w' ctl) : ctl.isSending = false := by
  cases h with
  | more | blocked => rfl
  | ended _ hclean => exact hclean.not_sending

/-! ## `send` and `isend` -/

/-- Not a hard error. -/
def Soft : WriteRet → Prop
  | .ret n => 0 < n
  | .error (.other _) => False
  | .error _ => True

/-- What the socket accepts in one call of `writeImp`. -/
theorem isendTurn_soft {buf : List Cell} {sended sended' : Nat} {r : WriteRet} {more : Bool}
    (h : w.isendTurn ch buf sended r = (w', sended', more)) (hr : Soft r) :
    more = true ∧ w'.conn.output = w.conn.output ∧
      (w.conn.channel ≠ none → w'.conn.channel ≠ none) ∧
      ∃ n, sended' = sended + n ∧ w'.wire = w.wire ++ (buf.drop sended).take n := by
  cases isendTurn_cases h with
  | bytes => exact ⟨rfl, rfl, fun h => h, _, rfl, rfl⟩
  | none => exact absurd hr (Nat.lt_irrefl 0)
  | interrupted | full => exact ⟨rfl, rfl, fun h => h, 0, rfl, (List.append_nil _).symm⟩
  | enable => exact ⟨rfl, rfl, fun _ => nofun, 0, rfl, (List.append_nil _).symm⟩
  | fail => exact hr.elim

/-! ## The order -/

/-- All messages, in the order of the calls of `send`. -/
def sent (es : List Event) : List Cell :=
  es.flatMap fun
    | .send msg _ => msg.1.content
    | _ => []

/-- While no `send` is under way the bytes on the wire and then `output_` are what was sent, and the
bytes on the wire are always a prefix of it. -/
def Ordered (es : List Event) (s : Sys) : Prop :=
  (s.ctl.isSending = false → s.w.wire ++ s.w.conn.output.content = sent es) ∧ s.w.wire <+: sent es

/-- The users call `send` while the connection is handshaking or connected, and no call of
`writeImp` fails. -/
def Promised (s : Sys) : Event → Prop
  | .send _ _ => s.w.conn.state = .handshaking ∨ s.w.conn.state = .connected
  | .write r => Soft r
  | _ => True

/-- A message that is written past `output_` could as well have been written after it. -/
def InTurn (s : Sys) : Event → Prop
  | .send msg _ => (∃ ch, s.w.conn.channel = some ch ∧ ch.writeEnable = false) →
    s.w.conn.output.content ++ msg.1.content = msg.1.content ++ s.w.conn.output.content
  | _ => True

/-- What is on the wire and in `output_` when the loop thread is at `ctl`. -/
def Accounted (es : List Event) (w : World) : Ctl → Prop
  | .sending msg sended _ _ => msg.WF ∧
    w.conn.output.content ++ msg.content = msg.content ++ w.conn.output.content ∧
    ∃ front, w.wire = front ++ msg.content.take sended ∧
      sent es = front ++ w.conn.output.content ++ msg.content
  | _ => w.wire ++ w.conn.output.content = sent es

structure OrderInv (es : List Event) (s : Sys) : Prop where
  output : s.w.conn.output.WF
  /-- Who is not at rest in the state `Invalid` has a channel. -/
  channel : s.w.conn.state ≠ .invalid ∨ s.ctl ≠ .user .event → s.w.conn.channel ≠ none
  accounted : Accounted es s.w s.ctl

theorem accounted_iff (h : ctl.isSending = false) :
    Accounted es w ctl ↔ w.wire ++ w.conn.output.content = sent es := by
  cases ctl with
  | sending => cases h
  | user | reading => rfl

theorem OrderInv.ordered (h : OrderInv es s) : Ordered es s := by
  obtain ⟨w, ctl⟩ := s
  have hacc := h.accounted
  cases ctl with
  | user | reading =>
    have hwire : w.wire ++ w.conn.output.content = sent es := hacc
    exact ⟨fun _ => hwire, hwire ▸ List.prefix_append _ _⟩
  | sending msg sended own c =>
    obtain ⟨-, hcomm, front, hwire, hsent⟩ := hacc
    refine ⟨nofun, ?_⟩
    simp only
    rw [hwire, hsent, List.append_assoc, hcomm]
    refine List.prefix_append_right_inj front |>.mpr ?_
    exact (List.take_prefix sended _).trans (List.prefix_append _ _)

theorem sent_snoc : sent (es ++ [e]) = sent es ++ sent [e] := List.flatMap_append

/-- A step that writes nothing and adds nothing to `output_`. -/
theorem OrderInv.frame {ctl' : Ctl} (h : OrderInv es ⟨w, ctl⟩) (hframe : Frame w w')
    (hctl : ctl.isSending = false) (hctl' : ctl'.isSending = false) (he : sent [e] = [])
    (hchannel : w'.conn.state ≠ .invalid ∨ ctl' ≠ .user .event → w.conn.channel ≠ none) :
    OrderInv (es ++ [e]) ⟨w', ctl'⟩ := by
  refine ⟨?_, fun hw => hframe.channel (hchannel hw), ?_⟩
  · simp only
    rw [hframe.output]
    exact h.output
  · refine (accounted_iff hctl').mpr ?_
    rw [hframe.wire, hframe.output, sent_snoc, he, List.append_nil]
    exact (accounted_iff hctl).mp h.accounted

/-- A call of `send` that does not get to `isend`. -/
theorem OrderInv.sendDone {msg : WFBuffer} {own : Bool} {c : Caller} {left : Buffer}
    (h : OrderInv es ⟨w, .user c⟩) (hstate : w.conn.state ≠ .invalid)
    (hsend : w.send msg = (w', left)) (hdone : w.conn.channel = none ∨ left.size = 0) :
    OrderInv (es ++ [.send msg own]) ⟨w'.setMsg own left, .user c⟩ := by
  have hnone : w.conn.channel ≠ none := h.channel (.inl hstate)
  have hleft : left.size = 0 := hdone.resolve_left hnone
  have hacc : w.wire ++ w.conn.output.content = sent es := h.accounted
  have hframe : Frame w' (w'.setMsg own left) := setMsg_frame
  cases send_cases hsend with
  | absorbed =>
    obtain ⟨hwf, -, hcontent, -⟩ := absorb_spec h.output msg.2
    refine ⟨?_, fun _ => hframe.channel hnone, ?_⟩
    · simp only
      rw [hframe.output]
      exact hwf
    · refine (accounted_iff rfl).mpr ?_
      rw [hframe.wire, hframe.output, sent_snoc, ← hacc]
      simp only
      rw [hcontent, List.append_assoc]
      simp [sent]
  | direct =>
    refine ⟨?_, fun _ => hframe.channel hnone, ?_⟩
    · simp only
      rw [hframe.output]
      exact h.output
    · have hmsg : msg.1.content = [] := (content_eq_nil_iff msg.2).mpr hleft
      refine (accounted_iff rfl).mpr ?_
      rw [hframe.wire, hframe.output, sent_snoc, hacc]
      simp [sent, hmsg]
  | dropped hch => exact absurd hch hnone

/-- A call of `send` that writes directly. -/
theorem OrderInv.send {msg : WFBuffer} {own : Bool} {c : Caller} {left : Buffer}
    (h : OrderInv es ⟨w, .user c⟩) (hturn : InTurn ⟨w, .user c⟩ (.send msg own))
    (hsend : w.send msg = (w', left)) (hch : w.conn.channel = some ch) (hleft : left.size ≠ 0) :
    OrderInv (es ++ [.send msg own]) ⟨w', .sending left 0 own c⟩ := by
  have hacc : w.wire ++ w.conn.output.content = sent es := h.accounted
  have hnone : w.conn.channel ≠ none := by simp [hch]
  cases send_cases hsend with
  | absorbed =>
    obtain ⟨-, hwf, -, hcontent, -⟩ := absorb_spec h.output msg.2
    exact absurd ((content_eq_nil_iff hwf).mp hcontent) hleft
  | direct hch hwrite =>
    refine ⟨h.output, fun _ => hnone, msg.2, hturn ⟨_, hch, hwrite⟩, w.wire, ?_, ?_⟩
    · rw [List.take_zero, List.append_nil]
    · rw [sent_snoc, ← hacc]
      simp [sent]
  | dropped hch => exact absurd hch hnone

/-- A turn of `isend` after which the loop goes on. -/
theorem OrderInv.write {msg : Buffer} {sended sended' : Nat} {own more : Bool} {c : Caller}
    {r : WriteRet} (h : OrderInv es ⟨w, .sending msg sended own c⟩) (hr : Soft r)
    (hturn : w.isendTurn ch msg.content sended r = (w', sended', more)) :
    OrderInv (es ++ [.write r]) ⟨w', .sending msg sended' own c⟩ := by
  obtain ⟨-, houtput, hchannel, n, rfl, hwire⟩ := isendTurn_soft hturn hr
  obtain ⟨hwf, hcomm, front, hfront, hsent⟩ := h.accounted
  refine ⟨?_, fun _ => hchannel (h.channel (.inr nofun)), hwf, ?_, front, ?_, ?_⟩
  · simp only
    rw [houtput]
    exact h.output
  · simp only
    rw [houtput]
    exact hcomm
  · simp only
    rw [hwire, hfront, List.append_assoc, ← List.take_add]
  · simp only
    rw [sent_snoc, houtput, hsent]
    simp [sent]

/-- The loop of `isend` ends when all is sent, and then the message is behind `output_`'s bytes. -/
theorem OrderInv.returns {msg : Buffer} {own : Bool} {c : Caller}
    (h : OrderInv es ⟨w, .sending msg msg.size own c⟩) {left : Buffer} :
    OrderInv es ⟨w.setMsg own left, .user c⟩ := by
  have hframe : Frame w (w.setMsg own left) := setMsg_frame
  obtain ⟨hwf, hcomm, front, hfront, hsent⟩ := h.accounted
  refine ⟨?_, fun _ => hframe.channel (h.channel (.inr nofun)), ?_⟩
  · simp only
    rw [hframe.output]
    exact h.output
  · refine (accounted_iff rfl).mpr ?_
    rw [← length_content hwf, List.take_length] at hfront
    rw [hframe.wire, hframe.output, hsent, hfront, List.append_assoc, List.append_assoc, hcomm]

theorem OrderInv.step (h : OrderInv es s) (hpromise : Promised s e) (hturn : InTurn s e)
    (hs : Step s e s') : OrderInv (es ++ [e]) s' := by
  cases hs with
  | @attach w fd =>
    have hattach : Frame w (w.attach fd) := ⟨rfl, rfl, fun _ => nofun⟩
    refine ⟨h.output, fun _ => nofun, ?_⟩
    refine (accounted_iff rfl).mpr ?_
    rw [hattach.wire, hattach.output, sent_snoc, (accounted_iff rfl).mp h.accounted]
    exact (List.append_nil _).symm
  | onRead | useInput =>
    exact h.frame ⟨rfl, rfl, fun h => h⟩ rfl rfl rfl h.channel
  | sendDone _ hsend hleft =>
    refine h.sendDone ?_ hsend hleft
    rcases hpromise with hstate | hstate
    · simp only at hstate
      simp [hstate]
    · simp only at hstate
      simp [hstate]
  | send _ hsend hch hleft => exact h.send hturn hsend hch hleft
  | write _ hisend => exact h.write hpromise hisend
  | @writeDone _ _ _ _ _ _ _ _ _ more _ hisend hdone _ =>
    obtain ⟨rfl, -⟩ := isendTurn_soft hisend hpromise
    obtain rfl := hdone.resolve_left nofun
    exact (h.write hpromise hisend).returns
  | readcbRet => exact h.frame .refl rfl rfl rfl fun _ => h.channel (.inr nofun)
  | readcbCleanup =>
    exact h.frame ⟨rfl, rfl, fun h => h⟩ rfl rfl rfl fun _ => h.channel (.inr nofun)
  | wait | skip | skipUnknown =>
    exact h.frame ⟨rfl, rfl, fun h => h⟩ rfl rfl rfl h.channel
  | handleRead _ hch _ _ hhandle =>
    have hcases := handleRead_cases hhandle
    refine h.frame ?_ rfl (hcases.not_sending rfl) rfl fun _ => by simp [hch]
    exact frame_poller.trans hcases.frame
  | handleWrite _ hch _ _ _ hhandle =>
    have hcases := handleWrite_cases hhandle
    refine h.frame ?_ rfl (hcases.not_sending rfl) rfl fun _ => by simp [hch]
    exact frame_poller.trans hcases.frame
  | read hch _ hturned =>
    have hcases := readTurn_cases hturned
    exact h.frame hcases.frame rfl hcases.not_sending rfl fun _ => by simp [hch]
  | close hch hclose =>
    rcases close_cases hclose with ⟨-, hcases⟩ | ⟨-, rfl, rfl⟩
    · refine h.frame ?_ rfl (hcases.not_sending rfl) rfl fun _ => by simp [hch]
      exact frame_detached.trans hcases.frame
    · exact h.frame .refl rfl rfl rfl h.channel
  | openOther | closeOther =>
    exact h.frame ⟨rfl, rfl, fun h => h⟩ rfl rfl rfl h.channel

theorem OrderInv.init : OrderInv [] {} := ⟨.init, fun h => by simp at h, rfl⟩

/-- **The order of the output.** In every run in which the users and the socket keep their promises
and no message overtakes `output_`, what is on the wire and then `output_` is what was sent, and
what is on the wire is a prefix of it at any moment. -/
theorem send_order (h : Run (guarded (fun s e => Promised s e ∧ InTurn s e) Step) {} es s) :
    Ordered es s := by
  suffices hinv : OrderInv es s from hinv.ordered
  induction h with
  | nil => exact .init
  | snoc _ hs ih =>
    obtain ⟨⟨hpromise, hturn⟩, hs⟩ := hs
    exact ih.step hpromise hturn hs

/-- A message of one byte. -/
def oneByte (x : UInt8) : WFBuffer := ⟨({} : Buffer).append [some x], .append .init⟩

/-- A message that is sent after the handshake, to a socket that is full at first. -/
theorem send_order_direct : ∃ es s, Run (guarded (fun s e => Promised s e ∧ InTurn s e) Step) {} es s ∧
    s.w.wire = [some 97] ∧ Ordered es s := by
  have hrun : ∃ s, Run (guarded (fun s e => Promised s e ∧ InTurn s e) Step) {} [.attach 5,
      .wait [⟨some 1, 0x4⟩], .handleWrite ⟨1, 0x4⟩, .send (oneByte 97) false,
      .write (.error .EAGAIN), .write (.ret 1)] s ∧ s.w.wire = [some 97] := by
    refine ⟨?s, ?run, ?wire⟩
    case run =>
      refine .cons ⟨⟨trivial, trivial⟩, step_attach (by decide)⟩ ?_
      refine .cons ⟨⟨trivial, trivial⟩, step_wait List.mem_cons_self (by decide)⟩ ?_
      refine .cons ⟨⟨trivial, trivial⟩, .handleWrite rfl rfl rfl rfl rfl rfl⟩ ?_
      refine .cons ⟨⟨.inr rfl, fun _ => rfl⟩, .send nofun rfl rfl (by decide)⟩ ?_
      refine .cons ⟨⟨trivial, trivial⟩, .write rfl rfl (by decide) (absurd · (by decide))⟩ ?_
      refine .cons ⟨⟨Nat.one_pos, trivial⟩,
        .writeDone rfl rfl (.inr rfl) (absurd · (by decide))⟩ ?_
      exact .nil
    case wire => decide
  obtain ⟨s, hrun, hwire⟩ := hrun
  exact ⟨_, s, hrun, hwire, send_order hrun⟩

/-- What was sent before the handshake remains in `output_`, and what is sent after it is written. -/
theorem send_not_ordered : ¬∀ es s, Run (guarded Promised Step) {} es s → Ordered es s := by
  intro h
  have hrun : ∃ s, Run (guarded Promised Step) {} [.attach 5, .send (oneByte 97) false,
      .wait [⟨some 1, 0x4⟩], .handleWrite ⟨1, 0x4⟩, .send (oneByte 98) false, .write (.ret 1)] s ∧
      s.ctl.isSending = false ∧ s.w.wire = [some 98] ∧
      s.w.conn.output.content = [some 97] := by
    refine ⟨?s, ?run, ?facts⟩
    case run =>
      refine .cons ⟨trivial, step_attach (by decide)⟩ ?_
      refine .cons ⟨.inl rfl, .sendDone nofun rfl (.inr rfl)⟩ ?_
      refine .cons ⟨trivial, step_wait List.mem_cons_self (by decide)⟩ ?_
      refine .cons ⟨trivial, .handleWrite rfl rfl rfl rfl rfl rfl⟩ ?_
      refine .cons ⟨.inr rfl, .send nofun rfl rfl (by decide)⟩ ?_
      refine .cons ⟨Nat.one_pos, .writeDone rfl rfl (.inr rfl) (absurd · (by decide))⟩ ?_
      exact .nil
    case facts => decide
  obtain ⟨s, hrun, hctl, hwire, houtput⟩ := hrun
  have hordered := (h _ s hrun).1 hctl
  rw [hwire, houtput] at hordered
  cases hordered

end NetLibrary.TcpConn
