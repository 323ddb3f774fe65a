import NetLibrary.Verify.TcpConn.Order

/-!
# The input of a connection

A `Trace` counts along what `readImp` has stored and what the users have taken out of `input_`. As long
as they take it from the front, or pass `input_` to `send`, nothing is lost or doubled, and they are
called for what is in `input_` before the loop thread leaves `handleRead` (`input_delivered`).
-/

namespace NetLibrary.TcpConn
open LTS Buffer

variable {w w' : World} {ch : Channel} {p : PollRet} {r : ReadRet} {ctl next : Ctl} {s s' : Sys}
  {e : Event} {es : List Event}

/-! ## What is read and what is taken out -/

/-- The bytes that a call of `readImp` has stored. It is not called for a descriptor that is closed. -/
def readBytes (w : World) : Event → List Cell
  | .read (.data bytes) =>
    match w.conn.channel with
    | some ch => if 0 ≤ ch.fd then bytes.map some else []
    | none => []
  | _ => []

/-- The bytes at the front of `input_` that users' code has taken out of it. -/
def takenBytes (w w' : World) : Event → List Cell
  | .useInput _ | .send _ _ | .write _ =>
    w.conn.input.content.take (w.conn.input.content.length - w'.conn.input.content.length)
  | _ => []

/-- A connection with the bytes that were read and those that were taken out. -/
structure Trace where
  sys : Sys := {}
  read : List Cell := []
  taken : List Cell := []

def Traced (t : Trace) (e : Event) (t' : Trace) : Prop :=
  Step t.sys e t'.sys ∧ t'.read = t.read ++ readBytes t.sys.w e ∧
    t'.taken = t.taken ++ takenBytes t.sys.w t'.sys.w e

/-- The users only consume from the front of `input_`. -/
def Consumes (s : Sys) : Event → Prop
  | .useInput input => ∃ n ≤ s.w.conn.input.size, input.1 = s.w.conn.input.consume n
  | _ => True

/-- The read callback is set before the first event of the connection, which finds it handshaking. -/
def Prepared (s : Sys) : Event → Prop
  | .handleRead _ | .handleWrite _ => s.w.conn.state = .handshaking → s.w.conn.readcb = true
  | _ => True

/-! ## The handlers -/

/-- The buffers are as they were. -/
def SameBuffers (w w' : World) : Prop :=
  w'.conn.input = w.conn.input ∧ w'.conn.output = w.conn.output

theorem Cleanup.same (h : Cleanup w w' ctl) : SameBuffers w w' := by
  cases h with
  | readcb | done => exact ⟨rfl, rfl⟩

theorem Handled.same (h : Handled w ch p next w' ctl) : SameBuffers w w' := by
  cases h with
  | connect | connected | other => exact ⟨rfl, rfl⟩
  | fail _ _ hclean => exact hclean.same

/-- A turn that stores nothing. -/
theorem input_makeRoom (hwf : w.conn.input.WF) (hinput : w'.conn.input = w.conn.input.makeRoom') :
    w'.conn.input.WF ∧ w'.conn.input.exp = w.conn.input.exp ∧
      w'.conn.input.content = w.conn.input.content ++ [] := by
  rw [hinput, List.append_nil]
  exact ⟨hwf.makeRoom', exp_makeRoom', content_makeRoom' hwf⟩

/-- A turn of the loop in `handleRead` appends what `readImp` has stored. -/
theorem readTurn_input (hwf : w.conn.input.WF) (hch : w.conn.channel = some ch)
    (hlen : ∀ bytes, r = .data bytes → bytes.length ≤ w.conn.input.makeRoom'.space)
    (h : w.readTurn ch r = (w', ctl)) : w'.conn.input.WF ∧ w'.conn.input.exp = w.conn.input.exp ∧
      w'.conn.input.content = w.conn.input.content ++ readBytes w (.read r) := by
  rw [World.readTurn] at h
  by_cases hfd : 0 ≤ ch.fd
  · simp only [if_pos hfd] at h
    cases r with
    | error err =>
      cases err with
      | EINTR | EAGAIN =>
        cases h
        exact input_makeRoom hwf rfl
      | other => exact input_makeRoom hwf (cleanup_cases h).same.1
    | data bytes =>
      cases bytes with
      | nil =>
        have hnil : readBytes w (.read (.data [])) = [] := by simp [readBytes, hch]
        rw [hnil]
        exact input_makeRoom hwf (cleanup_cases h).same.1
      | cons x xs =>
        cases h
        have hroom : (w.conn.input.makeRoom').WF := hwf.makeRoom'
        have hspace : ((x :: xs).map some).length ≤ w.conn.input.makeRoom'.space := by
          rw [List.length_map]
          exact hlen _ rfl
        have hcap := hroom.e_le_cap
        have hfits : w.conn.input.makeRoom'.e + ((x :: xs).map some).length ≤
            w.conn.input.makeRoom'.cap := by
          simp only [space] at hspace
          omega
        have hwf' := (hroom.store hfits).addSize hspace
        have hcontent := content_store_addSize hroom hspace
        rw [List.length_map] at hwf' hcontent
        refine ⟨hwf', exp_makeRoom', ?_⟩
        rw [hcontent, content_makeRoom' hwf]
        simp [readBytes, hch, hfd]
  · simp only [if_neg hfd] at h
    have hnil : readBytes w (.read r) = [] := by
      cases r with
      | data => simp [readBytes, hch, hfd]
      | error => rfl
    rw [hnil]
    exact input_makeRoom hwf (cleanup_cases h).same.1

/-- `send` leaves a part of the message's end in it. -/
theorem send_input {msg left : Buffer} (hmsg : msg.WF) (hout : w.conn.output.WF)
    (h : w.send msg = (w', left)) : w'.conn.input = w.conn.input ∧ w'.conn.output.WF ∧ left.WF ∧
      left.exp = msg.exp ∧ left.content <:+ msg.content := by
  cases send_cases h with
  | absorbed =>
    obtain ⟨hwf, hleft, -, hnil, -, hexp⟩ := absorb_spec hout hmsg
    exact ⟨rfl, hwf, hleft, hexp, hnil ▸ List.nil_suffix⟩
  | direct | dropped => exact ⟨rfl, hout, hmsg, rfl, List.suffix_refl _⟩

/-! ## The invariant -/

structure InputInv (t : Trace) : Prop where
  input : t.sys.w.conn.input.WF
  output : t.sys.w.conn.output.WF
  /-- `setSuggestSize` is not called. -/
  exp : t.sys.w.conn.input.exp = 512
  read : t.taken ++ t.sys.w.conn.input.content = t.read
  /-- While `send` is under way the message is left alone. -/
  own : ∀ {msg sended c}, t.sys.ctl = .sending msg sended true c → t.sys.w.conn.input = msg
  readcb : t.sys.w.conn.state = .connected → t.sys.w.conn.readcb = true
  reading : t.sys.ctl = .reading → t.sys.w.conn.state = .connected

theorem InputInv.init : InputInv {} where
  input := .init
  output := .init
  exp := rfl
  read := rfl
  own := nofun
  readcb := nofun
  reading := nofun

/-- A connection that is connected has its read callback, and only then `handleRead` is in its loop. -/
def Ready (w : World) (ctl : Ctl) : Prop :=
  (w.conn.state = .connected → w.conn.readcb = true) ∧ (ctl = .reading → w.conn.state = .connected)

theorem finishCleanup_state : w.finishCleanup.conn.state ≠ .connected := by
  rw [World.finishCleanup]
  split
  · exact Status.noConfusion
  · exact Status.noConfusion

theorem Cleanup.ready (h : Cleanup w w' ctl)
    (hcb : w.conn.state = .connected → w.conn.readcb = true) : Ready w' ctl := by
  cases h with
  | readcb => exact ⟨hcb, nofun⟩
  | done => exact ⟨fun hstate => absurd hstate finishCleanup_state, nofun⟩

theorem Handled.ready (h : Handled w ch p next w' ctl)
    (hcb : w.conn.state = .connected → w.conn.readcb = true)
    (hprepared : w.conn.state = .handshaking → Succeeds ch p → w.conn.readcb = true) :
    Ready w' ctl := by
  cases h with
  | connect hstate hok => exact ⟨fun _ => hprepared hstate hok, fun _ => rfl⟩
  | fail _ _ hclean => exact hclean.ready hcb
  | connected hstate => exact ⟨hcb, fun _ => hstate⟩
  | other _ hstate => exact ⟨hcb, nofun⟩

theorem Turned.ready (h : Turned w ch r w' ctl) (hcb : w.conn.state = .connected → w.conn.readcb = true)
    (hstate : w.conn.state = .connected) : Ready w' ctl := by
  cases h with
  | more => exact ⟨hcb, fun _ => hstate⟩
  | blocked => exact ⟨hcb, nofun⟩
  | ended _ hclean => exact hclean.ready hcb

variable {read taken : List Cell} {ctl' : Ctl}

/-- A step that leaves the buffers alone. -/
theorem InputInv.same (h : InputInv ⟨⟨w, ctl⟩, read, taken⟩) (hsame : SameBuffers w w')
    (hread : readBytes w e = []) (htaken : takenBytes w w' e = [])
    (hown : ∀ {msg sended c}, ctl' = .sending msg sended true c → w.conn.input = msg)
    (hready : Ready w' ctl') :
    InputInv ⟨⟨w', ctl'⟩, read ++ readBytes w e, taken ++ takenBytes w w' e⟩ := by
  obtain ⟨hinput, houtput⟩ := hsame
  rw [hread, htaken, List.append_nil, List.append_nil]
  refine ⟨?_, ?_, ?_, ?_, fun hctl => hinput.trans (hown hctl), hready.1, hready.2⟩
  · exact hinput ▸ h.input
  · exact houtput ▸ h.output
  · exact hinput ▸ h.exp
  · exact hinput ▸ h.read

/-- A step of the users that takes bytes from the front of `input_`. -/
theorem InputInv.take (h : InputInv ⟨⟨w, ctl⟩, read, taken⟩) {c : Caller}
    (hinput : w'.conn.input.WF) (houtput : w'.conn.output.WF)
    (hexp : w'.conn.input.exp = w.conn.input.exp)
    (hsuffix : w'.conn.input.content <:+ w.conn.input.content) (hread : readBytes w e = [])
    (htaken : takenBytes w w' e = w.conn.input.content.take
      (w.conn.input.content.length - w'.conn.input.content.length))
    (hstate : w'.conn.state = w.conn.state) (hcb : w'.conn.readcb = w.conn.readcb) :
    InputInv ⟨⟨w', .user c⟩, read ++ readBytes w e, taken ++ takenBytes w w' e⟩ := by
  refine ⟨hinput, houtput, hexp.trans h.exp, ?_, nofun, ?_, nofun⟩
  · simp only
    rw [htaken, hread, List.append_nil, List.append_assoc, List.suffix_iff_eq_append.mp hsuffix]
    exact h.read
  · simp only
    rw [hstate, hcb]
    exact h.readcb

/-- What `send` and `isend` do to the connection but to its buffers. -/
theorem send_state {msg left : Buffer} (h : w.send msg = (w', left)) :
    w'.conn.state = w.conn.state ∧ w'.conn.readcb = w.conn.readcb := by
  cases send_cases h with
  | absorbed | direct | dropped => exact ⟨rfl, rfl⟩

theorem isendTurn_state {buf : List Cell} {sended sended' : Nat} {r : WriteRet} {more : Bool}
    (h : w.isendTurn ch buf sended r = (w', sended', more)) : SameBuffers w w' ∧
      w'.conn.state = w.conn.state ∧ w'.conn.readcb = w.conn.readcb := by
  cases isendTurn_cases h with
  | bytes | none | interrupted | full | enable | fail => exact ⟨⟨rfl, rfl⟩, rfl, rfl⟩

theorem setMsg_state {own : Bool} {msg : Buffer} :
    (w.setMsg own msg).conn.output = w.conn.output ∧ (w.setMsg own msg).conn.state = w.conn.state ∧
      (w.setMsg own msg).conn.readcb = w.conn.readcb := by
  have hinput : ∃ input, w.setMsg own msg = w.setInput input := setMsg_input
  obtain ⟨_, hmsg⟩ := hinput
  rw [hmsg]
  exact ⟨rfl, rfl, rfl⟩

/-- The users get their message back. If it was `input_`, they have taken bytes from its front. -/
theorem InputInv.setMsg (h : InputInv ⟨⟨w, ctl⟩, read, taken⟩) {own : Bool} {msg left : Buffer}
    {c : Caller} (hown : own = true → w.conn.input = msg)
    (hleft : own = true → left.WF ∧ left.exp = msg.exp ∧ left.content <:+ msg.content)
    (hinput : w'.conn.input = w.conn.input) (houtput : w'.conn.output.WF)
    (hstate : w'.conn.state = w.conn.state) (hcb : w'.conn.readcb = w.conn.readcb)
    (hread : readBytes w e = [])
    (htaken : takenBytes w (w'.setMsg own left) e = w.conn.input.content.take
      (w.conn.input.content.length - (w'.setMsg own left).conn.input.content.length)) :
    InputInv ⟨⟨w'.setMsg own left, .user c⟩, read ++ readBytes w e,
      taken ++ takenBytes w (w'.setMsg own left) e⟩ := by
  have hkeeps : (w'.setMsg own left).conn.output = w'.conn.output ∧
      (w'.setMsg own left).conn.state = w'.conn.state ∧
      (w'.setMsg own left).conn.readcb = w'.conn.readcb := setMsg_state
  obtain ⟨hout, hst, hrcb⟩ := hkeeps
  have hfront : (w'.setMsg own left).conn.input.WF ∧
      (w'.setMsg own left).conn.input.exp = w.conn.input.exp ∧
      (w'.setMsg own left).conn.input.content <:+ w.conn.input.content := by
    cases own with
    | true =>
      obtain rfl := hown rfl
      exact hleft rfl
    | false =>
      have heq : (w'.setMsg false left).conn.input = w.conn.input := hinput
      rw [heq]
      exact ⟨h.input, rfl, List.suffix_refl _⟩
  exact h.take hfront.1 (hout ▸ houtput) hfront.2.1 hfront.2.2 hread htaken (hst.trans hstate)
    (hrcb.trans hcb)

theorem not_sending_own (h : ctl.isSending = false) {msg : Buffer} {sended : Nat} {c : Caller}
    (hctl : ctl = .sending msg sended true c) : w.conn.input = msg := by
  rw [hctl] at h
  cases h

theorem InputInv.step (h : InputInv ⟨s, read, taken⟩) (hprepared : Prepared s e) (huse : Consumes s e)
    (hs : Step s e s') :
    InputInv ⟨s', read ++ readBytes s.w e, taken ++ takenBytes s.w s'.w e⟩ := by
  cases hs with
  | attach => exact h.same ⟨rfl, rfl⟩ rfl rfl nofun ⟨nofun, nofun⟩
  | onRead => exact h.same ⟨rfl, rfl⟩ rfl rfl nofun ⟨fun _ => rfl, nofun⟩
  | @sendDone _ _ msg _ _ _ hown hsend =>
    obtain ⟨hinput, houtput, hleft⟩ := send_input msg.2 h.output hsend
    obtain ⟨hstate, hcb⟩ := send_state hsend
    exact h.setMsg hown (fun _ => hleft) hinput houtput hstate hcb rfl rfl
  | @send w _ msg own _ _ _ hown hsend hch hleft =>
    cases send_cases hsend with
    | absorbed =>
      obtain ⟨-, hwf, -, hcontent, -⟩ := absorb_spec h.output msg.2
      exact absurd ((content_eq_nil_iff hwf).mp hcontent) hleft
    | direct =>
      refine h.same ⟨rfl, rfl⟩ rfl ?_ (fun hctl => ?_) ⟨h.readcb, nofun⟩
      · simp [takenBytes]
      · cases hctl
        exact hown rfl
    | dropped hnone =>
      rw [hch] at hnone
      cases hnone
  | write _ hisend =>
    obtain ⟨hsame, hstate, hcb⟩ := isendTurn_state hisend
    refine h.same hsame rfl ?_ (fun hctl => ?_) ⟨?_, nofun⟩
    · simp [takenBytes, hsame.1]
    · cases hctl
      exact h.own rfl
    · rw [hstate, hcb]
      exact h.readcb
  | @writeDone w _ msg _ own _ _ _ _ _ _ hisend =>
    obtain ⟨hsame, hstate, hcb⟩ := isendTurn_state hisend
    have hown : own = true → w.conn.input = msg := fun ho => h.own (by rw [ho])
    refine h.setMsg hown (fun ho => ?_) hsame.1 (hsame.2 ▸ h.output) hstate hcb rfl rfl
    have hmsg : msg.WF := hown ho ▸ h.input
    refine ⟨hmsg.consume, exp_consume, ?_⟩
    rw [content_consume hmsg]
    exact List.drop_suffix _ _
  | @useInput w _ input =>
    obtain ⟨n, -, hinput⟩ := huse
    have hwf : w.conn.input.WF := h.input
    refine h.take input.2 h.output ?_ ?_ rfl rfl rfl rfl
    · simp only [hinput, exp_consume]
    · simp only [hinput, content_consume hwf]
      exact List.drop_suffix _ _
  | readcbRet => exact h.same ⟨rfl, rfl⟩ rfl rfl nofun ⟨h.readcb, nofun⟩
  | readcbCleanup =>
    exact h.same ⟨rfl, rfl⟩ rfl rfl nofun ⟨fun hstate => absurd hstate finishCleanup_state, nofun⟩
  | wait | skip | skipUnknown | openOther | closeOther =>
    exact h.same ⟨rfl, rfl⟩ rfl rfl nofun ⟨h.readcb, nofun⟩
  | handleRead _ _ _ _ hhandle =>
    have hcases := handleRead_cases hhandle
    exact h.same hcases.same rfl rfl (not_sending_own (hcases.not_sending rfl))
      (hcases.ready h.readcb fun hstate _ => hprepared hstate)
  | handleWrite _ _ _ _ _ hhandle =>
    have hcases := handleWrite_cases hhandle
    exact h.same hcases.same rfl rfl (not_sending_own (hcases.not_sending rfl))
      (hcases.ready h.readcb fun hstate _ => hprepared hstate)
  | close _ hclose =>
    rcases close_cases hclose with ⟨-, hcases⟩ | ⟨-, rfl, rfl⟩
    · exact h.same hcases.same rfl rfl (not_sending_own (hcases.not_sending rfl))
        (hcases.ready h.readcb fun _ hok => absurd hok (not_succeeds (Int.negSucc_lt_zero 0)))
    · exact h.same ⟨rfl, rfl⟩ rfl rfl nofun ⟨h.readcb, nofun⟩
  | read hch hlen hturn =>
    have hcases := readTurn_cases hturn
    obtain ⟨hwf, hexp, hcontent⟩ := readTurn_input h.input hch hlen hturn
    obtain ⟨hcb, hreading⟩ := hcases.ready h.readcb (h.reading rfl)
    refine ⟨hwf, ?_, hexp.trans h.exp, ?_, not_sending_own hcases.not_sending, hcb, hreading⟩
    · exact hcases.frame.output ▸ h.output
    · simp only [takenBytes, List.append_nil]
      rw [hcontent, ← List.append_assoc]
      exact congrArg (· ++ _) h.read

theorem run_inputInv {t : Trace}
    (h : Run (guarded (fun t e => Prepared t.sys e ∧ Consumes t.sys e) Traced) {} es t) : InputInv t := by
  refine h.invariant (I := InputInv) .init fun {t e t'} hinv ⟨⟨hprepared, huse⟩, hs, hread, htaken⟩ => ?_
  obtain ⟨s', read', taken'⟩ := t'
  obtain rfl : read' = t.read ++ readBytes t.sys.w e := hread
  obtain rfl : taken' = t.taken ++ takenBytes t.sys.w s'.w e := htaken
  exact hinv.step hprepared huse hs

/-! ## The calls of the read callback -/

theorem Handled.not_closed (h : Handled w ch p next w' ctl) (hstate : w.conn.state ≠ .closed) :
    w'.conn.state ≠ .closed := by
  cases h with
  | connect => exact Status.noConfusion
  | fail hshake _ hclean =>
    cases hclean with
    | readcb => exact hstate
    | done =>
      rw [World.finishCleanup]
      simp [hshake]
  | connected | other => exact hstate

/-- With the callback set, `cleanup` gets to the state at once only when `input_` is empty. -/
theorem cleanup_closed (hwf : w.conn.input.WF) (hcb : w.conn.readcb = true)
    (hstate : w.conn.state ≠ .closed) (h : w.cleanup = (w', ctl)) (hclosed : w'.conn.state = .closed) :
    w'.conn.input.content = [] := by
  rw [World.cleanup] at h
  split at h
  · cases h
    exact absurd hclosed hstate
  · rename_i hempty
    cases h
    refine (content_eq_nil_iff hwf).mpr ?_
    simpa [hcb] using hempty

theorem readTurn_closed (hwf : w.conn.input.WF) (hcb : w.conn.readcb = true)
    (hstate : w.conn.state ≠ .closed) (h : w.readTurn ch r = (w', ctl))
    (hclosed : w'.conn.state = .closed) : w'.conn.input.content = [] := by
  rw [World.readTurn] at h
  generalize (if 0 ≤ ch.fd then r else .data []) = r' at h
  have hcleanup : World.cleanup (w.setInput w.conn.input.makeRoom') = (w', ctl) →
      w'.conn.input.content = [] := fun h =>
    cleanup_closed (w := w.setInput w.conn.input.makeRoom') hwf.makeRoom' hcb hstate h hclosed
  cases r' with
  | error err =>
    cases err with
    | EINTR | EAGAIN =>
      cases h
      exact absurd hclosed hstate
    | other => exact hcleanup h
  | data bytes =>
    cases bytes with
    | nil => exact hcleanup h
    | cons =>
      cases h
      exact absurd hclosed hstate

/-- `cleanup` is where the state becomes `Closed`. -/
theorem InputInv.closed {t : Trace} (h : InputInv t) (hs : Step t.sys e s')
    (hne : t.sys.w.conn.state ≠ .closed) (hclosed : s'.w.conn.state = .closed) :
    t.sys.ctl = .user (.readcb .cleanup) ∨ s'.w.conn.input.content = [] := by
  obtain ⟨s, read, taken⟩ := t
  cases hs with
  | attach => cases hclosed
  | onRead | useInput | readcbRet | wait | skip | skipUnknown | openOther | closeOther =>
    exact absurd hclosed hne
  | sendDone _ hsend =>
    refine absurd ?_ hne
    rw [← (send_state hsend).1, ← setMsg_state.2.1]
    exact hclosed
  | send _ hsend =>
    refine absurd ?_ hne
    rw [← (send_state hsend).1]
    exact hclosed
  | write _ hisend =>
    refine absurd ?_ hne
    rw [← (isendTurn_state hisend).2.1]
    exact hclosed
  | writeDone _ hisend =>
    refine absurd ?_ hne
    rw [← (isendTurn_state hisend).2.1, ← setMsg_state.2.1]
    exact hclosed
  | readcbCleanup => exact .inl rfl
  | handleRead _ _ _ _ hhandle =>
    exact absurd hclosed ((handleRead_cases hhandle).not_closed hne)
  | handleWrite _ _ _ _ _ hhandle =>
    exact absurd hclosed ((handleWrite_cases hhandle).not_closed hne)
  | close _ hclose =>
    rcases close_cases hclose with ⟨-, hcases⟩ | ⟨-, rfl, rfl⟩
    · exact absurd hclosed (hcases.not_closed hne)
    · exact absurd hclosed hne
  | read _ _ hturn =>
    have hcb := h.readcb (h.reading rfl)
    exact .inr (readTurn_closed h.input hcb hne hturn hclosed)

theorem InputInv.eagain {t : Trace} (h : InputInv t) (hs : Step t.sys (.read (.error .EAGAIN)) s')
    (hch : t.sys.w.conn.channel = some ch) (hfd : 0 ≤ ch.fd)
    (hcontent : t.sys.w.conn.input.content ≠ []) : s'.ctl = .user (.readcb .ret) := by
  obtain ⟨s, read, taken⟩ := t
  cases hs with
  | @read w _ ch' _ _ hch' _ hturn =>
    obtain rfl : ch = ch' := Option.some.inj (hch.symm.trans hch')
    have hcb : w.conn.readcb = true := h.readcb (h.reading rfl)
    have hsize : w.conn.input.makeRoom'.size ≠ 0 := by
      intro hzero
      have hnil := (content_eq_nil_iff h.input.makeRoom').mpr hzero
      exact hcontent ((content_makeRoom' h.input).symm.trans hnil)
    rw [World.readTurn] at hturn
    simp only [if_pos hfd] at hturn
    cases hturn
    simp [hcb, hsize]

/-- **The input is delivered.** Whatever `readImp` answers, and whatever users who keep to the front of
`input_` do in the callback, the bytes that they have taken out and then `input_` are the bytes that were
read, in order. `readImp` is never offered an empty room. At `EAGAIN` the callback is called if `input_`
is not empty, and the state becomes `Closed` only when the callback has just returned, or with an empty
`input_`. -/
theorem input_delivered {t : Trace}
    (h : Run (guarded (fun t e => Prepared t.sys e ∧ Consumes t.sys e) Traced) {} es t) :
    t.taken ++ t.sys.w.conn.input.content = t.read ∧
    (t.sys.ctl = .reading → 0 < t.sys.w.conn.input.makeRoom'.space) ∧
    (∀ s' ch, Step t.sys (.read (.error .EAGAIN)) s' → t.sys.w.conn.channel = some ch → 0 ≤ ch.fd →
      t.sys.w.conn.input.content ≠ [] → s'.ctl = .user (.readcb .ret)) ∧
    ∀ e s', Step t.sys e s' → t.sys.w.conn.state ≠ .closed → s'.w.conn.state = .closed →
      t.sys.ctl = .user (.readcb .cleanup) ∨ s'.w.conn.input.content = [] := by
  have hinv := run_inputInv h
  refine ⟨hinv.read, fun _ => ?_, fun s' ch hs hch hfd hcontent => hinv.eagain hs hch hfd hcontent,
    fun e s' hs hne hclosed => hinv.closed hs hne hclosed⟩
  apply space_makeRoom'_pos hinv.input
  rw [hinv.exp]
  decide

theorem traced_step (h : Step s e s') : Traced ⟨s, read, taken⟩ e
    ⟨s', read ++ readBytes s.w e, taken ++ takenBytes s.w s'.w e⟩ := ⟨h, rfl, rfl⟩

/-- Two bytes come in one call of `readImp`, and the callback consumes them at `EAGAIN`. -/
theorem input_delivered_callback : ∃ es t,
    Run (guarded (fun t e => Prepared t.sys e ∧ Consumes t.sys e) Traced) {} es t ∧
    t.taken = [some 97, some 98] ∧ t.taken ++ t.sys.w.conn.input.content = t.read := by
  have hrun : ∃ t, Run (guarded (fun t e => Prepared t.sys e ∧ Consumes t.sys e) Traced) {}
      [.attach 5, .onRead, .wait [⟨some 1, 0x1⟩], .handleRead ⟨1, 0x4⟩, .read (.data [97, 98]),
        .read (.error .EAGAIN), .useInput ⟨{}, .init⟩, .readcbEnd] t ∧ t.taken = [some 97, some 98] := by
    refine ⟨?t, ?run, ?facts⟩
    case run =>
      refine .cons ⟨⟨trivial, trivial⟩, traced_step (step_attach (by decide))⟩ ?_
      refine .cons ⟨⟨trivial, trivial⟩, traced_step (.onRead rfl)⟩ ?_
      refine .cons ⟨⟨trivial, trivial⟩, traced_step (.wait (by decide) ?ready)⟩ ?_
      case ready => exact ready_single (i := ⟨5, 1, 0x5⟩) (by decide) (by decide)
      refine .cons ⟨⟨fun _ => rfl, trivial⟩, traced_step (.handleRead rfl rfl rfl rfl rfl)⟩ ?_
      refine .cons ⟨⟨trivial, trivial⟩, traced_step (.read rfl ?len rfl)⟩ ?_
      case len =>
        intro bytes hbytes
        cases hbytes
        decide
      refine .cons ⟨⟨trivial, trivial⟩, traced_step (.read rfl nofun rfl)⟩ ?_
      refine .cons ⟨⟨trivial, 2, by decide, by decide⟩, traced_step .useInput⟩ ?_
      refine .cons ⟨⟨trivial, trivial⟩, traced_step .readcbRet⟩ ?_
      exact .nil
    case facts => decide
  obtain ⟨t, hrun, htaken⟩ := hrun
  exact ⟨_, t, hrun, htaken, (input_delivered hrun).1⟩

end NetLibrary.TcpConn
