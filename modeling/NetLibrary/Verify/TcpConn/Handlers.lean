import NetLibrary.Theory.Run
import NetLibrary.Model.TcpConn

/-!
# What the handlers of a connection do

One inversion lemma for each handler: the worlds and the places in which it can leave the loop
thread. The invariants of the connection are derived from these.
-/

namespace NetLibrary.TcpConn

/-! ## Outcomes -/

/-- `poll` says that the socket is connected. -/
def Succeeds (ch : Channel) (p : PollRet) : Prop :=
  (World.poll ch p).r = 1 ∧ (World.poll ch p).revents = writeEvent

/-- The stream has ended, or `readImp` failed. -/
def Ends : ReadRet → Prop
  | .data bytes => bytes = []
  | .error (.other _) => True
  | .error _ => False

/-- The world after a successful handshake. -/
def World.connected (w : World) (ch : Channel) : World :=
  let w := w.updateChannel (ch.enableReadWrite true false)
  { w with conn := { w.conn with state := .connected } }

/-- The world after a change of `input_`. -/
def World.setInput (w : World) (input : Buffer) : World :=
  { w with conn := { w.conn with input } }

/-- The world in which `Channel::close` calls `handleRead`. -/
def World.detached (w : World) (ch : Channel) : World :=
  { w with
    poller := (w.poller.removeChannel ch).closeFd ch.fd
    conn := { w.conn with channel := some { ch with fd := -1 } } }

/-- `cleanup` ends in `readcb_`, or is done. -/
inductive Cleanup (w : World) : World → Ctl → Prop
  | readcb : Cleanup w w (.user (.readcb .cleanup))
  | done : Cleanup w w.finishCleanup (.user .event)

/-- What a handler does that may first have to do the handshake and then goes on at `next`. -/
inductive Handled (w : World) (ch : Channel) (p : PollRet) (next : Ctl) : World → Ctl → Prop
  | connect : w.conn.state = .handshaking → Succeeds ch p →
    Handled w ch p next (w.connected ch) next
  | fail {w' ctl} : w.conn.state = .handshaking → ¬Succeeds ch p → Cleanup w w' ctl →
    Handled w ch p next w' ctl
  | connected : w.conn.state = .connected → Handled w ch p next w next
  | other : w.conn.state ≠ .handshaking → w.conn.state ≠ .connected →
    Handled w ch p next w (.user .event)

/-- What a turn of the loop in `handleRead` does. -/
inductive Turned (w : World) (ch : Channel) (r : ReadRet) : World → Ctl → Prop
  | more {input} : Turned w ch r (w.setInput input) .reading
  | blocked {input after} : after = .event ∨ after = .readcb .ret →
    Turned w ch r (w.setInput input) (.user after)
  | ended {input w' ctl} : ch.fd < 0 ∨ Ends r → Cleanup (w.setInput input) w' ctl →
    Turned w ch r w' ctl

/-- What `send` does before it calls `isend`. -/
inductive Passed (w : World) (msg : Buffer) : World → Buffer → Prop
  | absorbed {ch} : w.conn.channel = some ch → ch.writeEnable = true →
    Passed w msg { w with conn := { w.conn with output := (w.conn.output.absorb msg).1 } }
      (w.conn.output.absorb msg).2
  | direct {ch} : w.conn.channel = some ch → ch.writeEnable = false → Passed w msg w msg
  | dropped : w.conn.channel = none → Passed w msg w msg

/-- What a turn of the loop in `isend` does. -/
inductive Wrote (w : World) (ch : Channel) (buf : List Cell) (sended : Nat) :
    WriteRet → World → Nat → Bool → Prop
  | bytes {n} : 0 < n →
    Wrote w ch buf sended (.ret n) { w with wire := w.wire ++ (buf.drop sended).take n } (sended + n)
      true
  | none : Wrote w ch buf sended (.ret 0) w sended false
  | interrupted : Wrote w ch buf sended (.error .EINTR) w sended true
  | full : ch.writeEnable = true → Wrote w ch buf sended (.error .EAGAIN) w sended true
  | enable : ch.writeEnable = false →
    Wrote w ch buf sended (.error .EAGAIN) (w.updateChannel (ch.enableWrite true)) sended true
  | fail {e} : Wrote w ch buf sended (.error (.other e)) w sended false

variable {w w' : World} {ch : Channel} {p : PollRet} {r : ReadRet} {ctl next : Ctl}

/-! ## The handlers -/

theorem not_succeeds (h : ch.fd < 0) : ¬Succeeds ch p := by
  rintro ⟨hr, -⟩
  rw [World.poll, if_pos h] at hr
  cases hr

theorem cleanup_cases (h : w.cleanup = (w', ctl)) : Cleanup w w' ctl := by
  rw [World.cleanup] at h
  split at h
  · cases h
    exact .readcb
  · cases h
    exact .done

theorem handleHandshake_pos (h : Succeeds ch p) :
    w.handleHandshake ch p = (w.connected ch, none) := if_pos h

theorem handleHandshake_neg (h : ¬Succeeds ch p) :
    w.handleHandshake ch p = (w.cleanup.1, some w.cleanup.2) := if_neg h

/-- The shape of `handleRead` and `handleWrite`. -/
def World.handle (w : World) (ch : Channel) (p : PollRet) (next : Ctl) : World × Ctl :=
  match w.conn.state with
  | .handshaking =>
    match w.handleHandshake ch p with
    | (w, none) => (w, next)
    | (w, some ctl) => (w, ctl)
  | .connected => (w, next)
  | _ => (w, .user .event)

theorem handleRead_eq : w.handleRead ch p = w.handle ch p .reading := by
  unfold World.handleRead World.handle
  cases w.conn.state <;> rfl

theorem handleWrite_eq : w.handleWrite ch p = w.handle ch p (.user .event) := by
  unfold World.handleWrite World.handle
  cases w.conn.state <;> rfl

theorem handle_cases (h : w.handle ch p next = (w', ctl)) : Handled w ch p next w' ctl := by
  rw [World.handle] at h
  cases hstate : w.conn.state with
  | handshaking =>
    rw [hstate] at h
    by_cases hok : Succeeds ch p
    · simp only [handleHandshake_pos hok] at h
      cases h
      exact .connect hstate hok
    · simp only [handleHandshake_neg hok] at h
      exact .fail hstate hok (cleanup_cases h)
  | connected =>
    rw [hstate] at h
    cases h
    exact .connected hstate
  | invalid | closed | failed =>
    rw [hstate] at h
    cases h
    refine .other ?_ ?_ <;> simp [hstate]

theorem handleRead_cases (h : w.handleRead ch p = (w', ctl)) : Handled w ch p .reading w' ctl :=
  handle_cases (handleRead_eq.symm.trans h)

theorem handleWrite_cases (h : w.handleWrite ch p = (w', ctl)) :
    Handled w ch p (.user .event) w' ctl :=
  handle_cases (handleWrite_eq.symm.trans h)

theorem readTurn_cases (h : w.readTurn ch r = (w', ctl)) : Turned w ch r w' ctl := by
  rw [World.readTurn] at h
  by_cases hfd : 0 ≤ ch.fd
  · simp only [if_pos hfd] at h
    match r with
    | .error .EINTR =>
      cases h
      exact .more
    | .error .EAGAIN =>
      cases h
      refine .blocked ?_
      split
      · exact .inr rfl
      · exact .inl rfl
    | .error (.other _) => exact .ended (.inr trivial) (cleanup_cases h)
    | .data [] => exact .ended (.inr rfl) (cleanup_cases h)
    | .data (_ :: _) =>
      cases h
      exact .more
  · simp only [if_neg hfd] at h
    exact .ended (.inl (Int.not_le.mp hfd)) (cleanup_cases h)

theorem close_cases (h : w.close ch p = (w', ctl)) :
    (0 < ch.fd ∧ Handled (w.detached ch) { ch with fd := -1 } p .reading w' ctl) ∨
    (¬0 < ch.fd ∧ w' = w ∧ ctl = .user .event) := by
  rw [World.close] at h
  split at h
  · rename_i hfd
    exact .inl ⟨hfd, handleRead_cases h⟩
  · rename_i hfd
    cases h
    exact .inr ⟨hfd, rfl, rfl⟩

/-! ## `send` and `isend` -/

theorem send_cases {msg left : Buffer} (h : w.send msg = (w', left)) : Passed w msg w' left := by
  rw [World.send] at h
  split at h
  · rename_i ch hch
    split at h
    · rename_i hwrite
      cases h
      exact .absorbed hch hwrite
    · rename_i hwrite
      cases h
      exact .direct hch (Bool.eq_false_iff.mpr hwrite)
  · rename_i hch
    cases h
    exact .dropped hch

theorem isendTurn_cases {buf : List Cell} {sended sended' : Nat} {r : WriteRet} {more : Bool}
    (h : w.isendTurn ch buf sended r = (w', sended', more)) :
    Wrote w ch buf sended r w' sended' more := by
  match r with
  | .ret 0 =>
    cases h
    exact .none
  | .ret (n + 1) =>
    cases h
    exact .bytes n.succ_pos
  | .error .EINTR =>
    cases h
    exact .interrupted
  | .error .EAGAIN =>
    cases h
    split
    · exact .full ‹_›
    · exact .enable (Bool.eq_false_iff.mpr ‹_›)
  | .error (.other _) =>
    cases h
    exact .fail

theorem setMsg_input {own : Bool} {msg : Buffer} : ∃ input, w.setMsg own msg = w.setInput input := by
  rw [World.setMsg]
  split
  · exact ⟨msg, rfl⟩
  · exact ⟨w.conn.input, rfl⟩

/-! ## The first steps of a run -/

theorem step_attach {fd : Int} (h : 0 ≤ fd) :
    Step {} (.attach fd) ⟨World.attach {} fd, .user .event⟩ :=
  .attach (by simp [World.attachable]) ⟨h, nofun⟩

/-- `epoll_wait` may report a single event. -/
theorem ready_single {poller : PollerEpoll} {i : Interest} {events : BitVec 32}
    (hi : i ∈ poller.interest)
    (he : events &&& ~~~(i.events.zeroExtend 32 ||| epollErr ||| epollHup) = 0) :
    poller.Ready [⟨some i.ptr, events⟩] := by
  refine ⟨by simp, fun e hmem => ?_⟩
  rw [List.mem_singleton.mp hmem]
  exact ⟨i, hi, rfl, he⟩

/-- The socket of the first channel, with the events of `attach`, is ready for `POLLOUT`. -/
theorem step_wait {fd : Int} (hi : (⟨fd, 1, 0x5⟩ : Interest) ∈ w.poller.interest)
    (hlast : w.poller.lastActive < 0) :
    Step ⟨w, .user .event⟩ (.wait [⟨some 1, 0x4⟩])
      ⟨{ w with poller := w.poller.wait [⟨some 1, 0x4⟩] }, .user .event⟩ := by
  have hevents : (0x4 : BitVec 32) &&&
      ~~~((0x5 : BitVec 16).zeroExtend 32 ||| epollErr ||| epollHup) = 0 := by decide
  exact .wait hlast (ready_single hi hevents)

end NetLibrary.TcpConn
