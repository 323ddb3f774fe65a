import NetLibrary.Verify.TcpConn.Order

/-!
# One call of `send`

`isend` on a trace of results of `writeImp`. The branch for `EAGAIN` enables the write interest and goes on
with the loop, so the loop ends early only where no such result comes before its end
(`isend_stops_iff`). Whatever the results are, no byte is lost or written twice (`send_conserves`).
-/

namespace NetLibrary

/-- The bytes that one call of `writeImp` has written. -/
def WriteRet.count : WriteRet → Nat
  | .ret n => n
  | .error _ => 0

namespace TcpConn
open LTS Buffer

variable {w w' : World} {ch : Channel} {buf : List Cell} {sended sended' : Nat} {r : WriteRet} {more : Bool}
  {rets pre post : List WriteRet}

/-! ## The loop of `isend` -/

/-- The bytes that the socket has accepted. -/
def accepted : List WriteRet → Nat
  | [] => 0
  | r :: rets => r.count + accepted rets

theorem accepted_append {rets rets' : List WriteRet} :
    accepted (rets ++ rets') = accepted rets + accepted rets' := by
  induction rets with
  | nil => exact (Nat.zero_add _).symm
  | cons r rets ih => rw [List.cons_append, accepted, accepted, ih, Nat.add_assoc]

/-- What one turn does to the world. -/
theorem isendTurn_world (h : w.isendTurn ch buf sended r = (w', sended', more)) :
    sended' = sended + r.count ∧ w'.wire = w.wire ++ (buf.drop sended).take r.count ∧
      w'.conn.output = w.conn.output ∧ w'.conn.input = w.conn.input ∧
      (w.conn.channel ≠ none → w'.conn.channel ≠ none) := by
  cases isendTurn_cases h with
  | bytes => exact ⟨rfl, rfl, rfl, rfl, fun h => h⟩
  | none | interrupted | full | fail =>
    exact ⟨rfl, (List.append_nil _).symm, rfl, rfl, fun h => h⟩
  | enable => exact ⟨rfl, (List.append_nil _).symm, rfl, rfl, fun _ => nofun⟩

theorem isendTurn_more (h : w.isendTurn ch buf sended r = (w', sended', more)) :
    more = true ↔ Soft r := by
  cases isendTurn_cases h with
  | bytes hpos => exact iff_of_true rfl hpos
  | none => exact iff_of_false nofun (Nat.lt_irrefl 0)
  | interrupted | full | enable => exact iff_of_true rfl trivial
  | fail => exact iff_of_false nofun id

theorem isend_done (h : buf.length ≤ sended) : w.isend buf sended rets = some (w, sended, rets) := by
  unfold World.isend
  exact if_pos h

theorem isend_nil (h : sended < buf.length) : w.isend buf sended [] = none := by
  unfold World.isend
  exact if_neg (Nat.not_le.mpr h)

theorem isend_cons (h : sended < buf.length) (hch : w.conn.channel = some ch)
    (hturn : w.isendTurn ch buf sended r = (w', sended', more)) :
    w.isend buf sended (r :: rets) =
      if more then w'.isend buf sended' rets else some (w', sended', rets) := by
  rw [World.isend, if_neg (Nat.not_le.mpr h), hch]
  simp only [hturn]

/-- The loop wants another result as long as no call has failed and not all is accepted. -/
theorem isend_eq_none_iff (hch : w.conn.channel ≠ none) :
    w.isend buf sended rets = none ↔ (∀ r ∈ rets, Soft r) ∧ sended + accepted rets < buf.length := by
  induction rets generalizing w sended with
  | nil =>
    by_cases hlt : sended < buf.length
    · exact iff_of_true (isend_nil hlt) ⟨nofun, hlt⟩
    · rw [isend_done (Nat.not_lt.mp hlt)]
      exact iff_of_false nofun fun h => hlt h.2
  | cons r rets ih =>
    have hcount : accepted (r :: rets) = r.count + accepted rets := rfl
    by_cases hlt : sended < buf.length
    · obtain ⟨ch, hsome⟩ := Option.ne_none_iff_exists'.mp hch
      obtain ⟨⟨w', sended', more⟩, hturn⟩ : ∃ t, w.isendTurn ch buf sended r = t := ⟨_, rfl⟩
      obtain ⟨rfl, -, -, -, hchannel⟩ := isendTurn_world hturn
      rw [isend_cons hlt hsome hturn, hcount, List.forall_mem_cons]
      by_cases hsoft : Soft r
      · rw [if_pos ((isendTurn_more hturn).mpr hsoft), ih (hchannel hch), Nat.add_assoc]
        exact ⟨fun h => ⟨⟨hsoft, h.1⟩, h.2⟩, fun h => ⟨h.1.2, h.2⟩⟩
      · rw [if_neg fun h => hsoft ((isendTurn_more hturn).mp h)]
        exact iff_of_false nofun fun h => hsoft h.1.1
    · rw [isend_done (Nat.not_lt.mp hlt)]
      exact iff_of_false nofun fun h => by omega

/-- Up to the results for which the loop wants another one. -/
theorem isend_append (hch : w.conn.channel ≠ none) (h : w.isend buf sended pre = none) :
    ∃ w' : World, w'.conn.channel ≠ none ∧ sended + accepted pre < buf.length ∧
      ∀ post, w.isend buf sended (pre ++ post) = w'.isend buf (sended + accepted pre) post := by
  induction pre generalizing w sended with
  | nil => exact ⟨w, hch, ((isend_eq_none_iff hch).mp h).2, fun _ => rfl⟩
  | cons r pre ih =>
    have hcount : accepted (r :: pre) = r.count + accepted pre := rfl
    obtain ⟨hsoft, hlt⟩ := (isend_eq_none_iff hch).mp h
    rw [hcount] at hlt
    obtain ⟨ch, hsome⟩ := Option.ne_none_iff_exists'.mp hch
    obtain ⟨⟨v, sended', more⟩, hturn⟩ : ∃ t, w.isendTurn ch buf sended r = t := ⟨_, rfl⟩
    obtain ⟨rfl, -, -, -, hchannel⟩ := isendTurn_world hturn
    have hmore : more = true := (isendTurn_more hturn).mpr (hsoft r List.mem_cons_self)
    have hstep : ∀ rets, w.isend buf sended (r :: rets) = v.isend buf (sended + r.count) rets :=
      fun rets => by rw [isend_cons (by omega) hsome hturn, if_pos hmore]
    obtain ⟨w', hch', hlt', hpost⟩ := ih (hchannel hch) ((hstep pre).symm.trans h)
    rw [hcount, ← Nat.add_assoc]
    exact ⟨w', hch', hlt', fun post => (hstep _).trans (hpost post)⟩

/-- What the loop does with its next result, if it returns. -/
theorem isend_cons_some {res : World × Nat × List WriteRet} (hlt : sended < buf.length)
    (h : w.isend buf sended (r :: rets) = some res) :
    ∃ ch v sended₁ more, w.isendTurn ch buf sended r = (v, sended₁, more) ∧
      (more = true ∧ v.isend buf sended₁ rets = some res ∨ more = false ∧ (v, sended₁, rets) = res) := by
  cases hch : w.conn.channel with
  | none =>
    rw [World.isend, if_neg (Nat.not_le.mpr hlt), hch] at h
    cases h
  | some ch =>
    obtain ⟨⟨v, sended₁, more⟩, hturn⟩ : ∃ t, w.isendTurn ch buf sended r = t := ⟨_, rfl⟩
    rw [isend_cons hlt hch hturn] at h
    refine ⟨ch, v, sended₁, more, hturn, ?_⟩
    cases more with
    | true => exact .inl ⟨rfl, h⟩
    | false => exact .inr ⟨rfl, Option.some.inj h⟩

/-- The loop uses a result if it is not done. -/
theorem isend_rest {rest : List WriteRet} (hlt : sended < buf.length)
    (h : w.isend buf sended rets = some (w', sended', rest)) : rest.length < rets.length := by
  induction rets generalizing w sended with
  | nil =>
    rw [isend_nil hlt] at h
    cases h
  | cons r rets ih =>
    obtain ⟨ch, v, sended₁, more, -, ⟨-, h⟩ | ⟨-, h⟩⟩ := isend_cons_some hlt h
    · rcases Nat.lt_or_ge sended₁ buf.length with hlt₁ | hdone
      · exact Nat.lt_succ_of_lt (ih hlt₁ h)
      · rw [isend_done hdone] at h
        cases h
        exact Nat.lt_succ_self _
    · cases h
      exact Nat.lt_succ_self _

/-! ## A socket that is full -/

/-- `isend` returns after the first `EAGAIN` that it gets, with the write interest on and the number of bytes
accepted so far. -/
def StopsWhenFull (w : World) (buf : List Cell) (rets : List WriteRet) : Prop :=
  ∀ pre post, rets = pre ++ .error .EAGAIN :: post → .error .EAGAIN ∉ pre → w.isend buf 0 pre = none →
    ∃ (w' : World) (ch : Channel), w.isend buf 0 rets = some (w', accepted pre, post) ∧ w'.conn.channel = some ch ∧
      ch.writeEnable = true

/-- Before the first `EAGAIN` a call has failed or all is accepted. -/
def DoneBeforeFull (len : Nat) (rets : List WriteRet) : Prop :=
  ∀ pre post, rets = pre ++ .error .EAGAIN :: post → .error .EAGAIN ∉ pre →
    (∃ r ∈ pre, ¬Soft r) ∨ len ≤ accepted pre

/-- **When `isend` stops at a full socket.** For every buffer and all results, it does exactly when it gets no
`EAGAIN` before it is done. -/
theorem isend_stops_iff (hch : w.conn.channel ≠ none) :
    StopsWhenFull w buf rets ↔ DoneBeforeFull buf.length rets := by
  constructor
  · intro h pre post hrets hfirst
    by_contra hnot
    obtain ⟨hsoft, hlt⟩ := not_or.mp hnot
    have hnone : w.isend buf 0 pre = none := by
      refine (isend_eq_none_iff hch).mpr ⟨fun r hr => ?_, by omega⟩
      exact Classical.not_not.mp fun hhard => hsoft ⟨r, hr, hhard⟩
    obtain ⟨w', -, hisend, -⟩ := h pre post hrets hfirst hnone
    -- The loop goes on after the `EAGAIN`, so it uses a result of `post`.
    have hnext : w.isend buf 0 (pre ++ [.error .EAGAIN]) = none := by
      refine (isend_eq_none_iff hch).mpr ⟨fun r hr => ?_, ?_⟩
      · rcases List.mem_append.mp hr with hr | hr
        · exact ((isend_eq_none_iff hch).mp hnone).1 r hr
        · rw [List.mem_singleton.mp hr]
          trivial
      · have hsum : accepted (pre ++ [.error .EAGAIN]) = accepted pre := by
          rw [accepted_append]
          rfl
        omega
    obtain ⟨v, -, hlt', hpost⟩ := isend_append hch hnext
    rw [hrets, List.append_cons, hpost post] at hisend
    exact absurd (isend_rest hlt' hisend) (Nat.lt_irrefl _)
  · intro h pre post hrets hfirst hnone
    obtain ⟨hsoft, hlt⟩ := (isend_eq_none_iff hch).mp hnone
    rcases h pre post hrets hfirst with ⟨r, hr, hhard⟩ | hdone
    · exact absurd (hsoft r hr) hhard
    · omega

/-- `isend` does not return from a socket that stays full. -/
theorem isend_full (hch : w.conn.channel ≠ none) (hlen : 0 < buf.length) (n : Nat) :
    w.isend buf 0 (List.replicate n (.error .EAGAIN)) = none := by
  refine (isend_eq_none_iff hch).mpr ⟨fun r hr => ?_, ?_⟩
  · rw [List.eq_of_mem_replicate hr]
    trivial
  · have hnone : accepted (List.replicate n (.error .EAGAIN)) = 0 := by
      induction n with
      | zero => rfl
      | succ n ih => rw [List.replicate_succ, accepted, ih]; rfl
    omega

/-- The socket accepts one byte of two, then a call fails, and the next one would find it full. -/
theorem isend_stops_iff_failed :
    StopsWhenFull (World.attach {} 5) [some 97, some 98] [.ret 1, .error (.other 32), .error .EAGAIN] := by
  have hch : (World.attach {} 5).conn.channel ≠ none := nofun
  refine (isend_stops_iff hch).mpr fun pre post hrets _ => .inl ⟨.error (.other 32), ?_, id⟩
  rcases pre with _ | ⟨r, _ | ⟨r', pre⟩⟩
  · cases hrets
  · cases hrets
  · simp only [List.cons_append, List.cons.injEq] at hrets
    obtain ⟨-, rfl, -⟩ := hrets
    exact .tail _ (.head _)

theorem isend_not_stops : ¬∀ (w : World) (buf : List Cell) (rets : List WriteRet), w.conn.channel ≠ none →
    StopsWhenFull w buf rets := by
  intro h
  obtain ⟨w', ch, hisend, -⟩ := h (World.attach {} 5) [some 97] [.error .EAGAIN, .ret 1] nofun []
    [.ret 1] rfl nofun rfl
  cases hisend

/-! ## The bytes of a message -/

/-- What `isend` has done when it returns: the socket has accepted the first bytes of `buf`. -/
theorem isend_world (h : w.isend buf sended rets = some (w', sended', [])) :
    sended' = sended + accepted rets ∧
      w'.wire = w.wire ++ (buf.drop sended).take (accepted rets) ∧
      w'.conn.output = w.conn.output ∧ w'.conn.input = w.conn.input := by
  induction rets generalizing w sended with
  | nil =>
    by_cases hlt : sended < buf.length
    · rw [isend_nil hlt] at h
      cases h
    · rw [isend_done (Nat.not_lt.mp hlt)] at h
      cases h
      exact ⟨rfl, (List.append_nil _).symm, rfl, rfl⟩
  | cons r rets ih =>
    have hcount : accepted (r :: rets) = r.count + accepted rets := rfl
    by_cases hlt : sended < buf.length
    · obtain ⟨ch, v, sended₁, more, hturn, hrest⟩ := isend_cons_some hlt h
      obtain ⟨rfl, hwire, houtput, hinput, -⟩ := isendTurn_world hturn
      rcases hrest with ⟨-, h⟩ | ⟨-, h⟩
      · obtain ⟨rfl, hwire', houtput', hinput'⟩ := ih h
        refine ⟨?_, ?_, houtput'.trans houtput, hinput'.trans hinput⟩
        · rw [hcount, Nat.add_assoc]
        · rw [hwire', hwire, hcount, List.append_assoc, List.take_add, List.drop_drop]
      · cases h
        exact ⟨rfl, hwire, houtput, hinput⟩
    · rw [isend_done (Nat.not_lt.mp hlt)] at h
      cases h

theorem setMsg_self {own : Bool} {msg : Buffer} (hown : own = true → w.conn.input = msg) :
    w.setMsg own msg = w := by
  cases own with
  | false => rfl
  | true =>
    rw [← hown rfl]
    rfl

/-- A call of `send` ends at once, or with `isend`. -/
theorem sendRun_cases {msg left : Buffer} {own : Bool}
    (h : w.sendRun msg own rets = some (w', left, [])) :
    ∃ v msg', w.send msg = (v, msg') ∧
      ((v.conn.channel = none ∨ msg'.size = 0) ∧ w' = v.setMsg own msg' ∧ left = msg' ∨
        (v.conn.channel ≠ none ∧ msg'.size ≠ 0) ∧ ∃ u sended, v.isend msg'.content 0 rets = some (u, sended, []) ∧
          w' = u.setMsg own (msg'.consume sended) ∧ left = msg'.consume sended) := by
  obtain ⟨⟨v, msg'⟩, hsend⟩ : ∃ t, w.send msg = t := ⟨_, rfl⟩
  refine ⟨v, msg', hsend, ?_⟩
  rw [World.sendRun, hsend] at h
  simp only at h
  split at h
  · rename_i hdone
    cases h
    exact .inl ⟨hdone, rfl, rfl⟩
  · rename_i hgo
    obtain ⟨⟨u, sended, rest⟩, hisend, heq⟩ := Option.map_eq_some_iff.mp h
    cases heq
    exact .inr ⟨not_or.mp hgo, u, sended, hisend, rfl, rfl⟩

/-- **`send` neither loses nor duplicates bytes.** Whatever `writeImp` returns, the bytes that the socket
accepts, then those that `output_` gains at its end, and then those that are left in `msg` are the message.
Without a channel nothing changes. -/
theorem send_conserves {msg : WFBuffer} {own : Bool} {left : Buffer} (houtput : w.conn.output.WF)
    (hown : own = true → w.conn.input = msg) (hsend : w.sendRun msg own rets = some (w', left, [])) :
    (∃ taken gained, w'.wire = w.wire ++ taken ∧
      w'.conn.output.content = w.conn.output.content ++ gained ∧
      taken ++ gained ++ left.content = msg.1.content) ∧
    (w.conn.channel = none → w' = w ∧ left = msg) := by
  obtain ⟨v, msg', hpassed, hcases⟩ := sendRun_cases hsend
  have hframe : ∀ {u : World} {m : Buffer}, Frame u (u.setMsg own m) := setMsg_frame
  cases send_cases hpassed with
  | @absorbed ch hch =>
    obtain ⟨-, hwf, hcontent, hempty, -⟩ := absorb_spec houtput msg.2
    have hsize : (w.conn.output.absorb msg).2.size = 0 := (content_eq_nil_iff hwf).mp hempty
    obtain ⟨-, rfl, rfl⟩ | ⟨⟨-, hne⟩, -⟩ := hcases
    · refine ⟨⟨[], msg.1.content, ?_, ?_, ?_⟩, fun hnone => ?_⟩
      · rw [hframe.wire, List.append_nil]
      · rw [hframe.output]
        exact hcontent
      · rw [hempty, List.append_nil, List.nil_append]
      · rw [hch] at hnone
        cases hnone
    · exact absurd hsize hne
  | direct hch =>
    refine ⟨?_, fun hnone => by rw [hch] at hnone; cases hnone⟩
    obtain ⟨-, rfl, rfl⟩ | ⟨-, u, sended, hisend, rfl, rfl⟩ := hcases
    · refine ⟨[], [], ?_, ?_, rfl⟩
      · rw [hframe.wire, List.append_nil]
      · rw [hframe.output, List.append_nil]
    · obtain ⟨hsended, hwire, hout, -⟩ := isend_world hisend
      refine ⟨msg.1.content.take sended, [], ?_, ?_, ?_⟩
      · rw [hframe.wire, hwire, hsended, List.drop_zero, Nat.zero_add]
      · rw [hframe.output, hout, List.append_nil]
      · rw [List.append_nil, content_consume msg.2, List.take_append_drop]
  | dropped hch =>
    obtain ⟨-, rfl, rfl⟩ | ⟨⟨hne, -⟩, -⟩ := hcases
    · rw [setMsg_self hown]
      exact ⟨⟨[], [], (List.append_nil _).symm, (List.append_nil _).symm, rfl⟩, fun _ => ⟨rfl, rfl⟩⟩
    · exact absurd hch hne

/-- The socket accepts one byte of two, and then a call fails. -/
theorem send_conserves_fail : ∃ w w' : World, ∃ left,
    w.sendRun (({} : Buffer).append [some 97, some 98]) false
      [.error .EINTR, .ret 1, .error (.other 32)] = some (w', left, []) ∧
    w'.wire = [some 97] ∧ left.content = [some 98] ∧ ∃ taken gained, w'.wire = w.wire ++ taken ∧
      w'.conn.output.content = w.conn.output.content ++ gained ∧
      taken ++ gained ++ left.content = [some 97, some 98] := by
  let w : World := { conn := { channel := some ⟨1, 5, readEvent⟩, output := ({} : Buffer).append [some 99] } }
  let msg : WFBuffer := ⟨({} : Buffer).append [some 97, some 98], .append .init⟩
  have hrun : w.sendRun msg.1 false [.error .EINTR, .ret 1, .error (.other 32)] =
      some ({ w with wire := [some 97] }, msg.1.consume 1, []) := rfl
  have hcontent : msg.1.content = [some 97, some 98] := content_append .init
  have hown : false = true → w.conn.input = msg := nofun
  obtain ⟨taken, gained, hwire, houtput, hmsg⟩ := (send_conserves (.append .init) hown hrun).1
  refine ⟨w, _, _, hrun, rfl, rfl, taken, gained, hwire, houtput, hmsg.trans hcontent⟩

/-! ## A call as a run of the connection -/

theorem isendTurn_fd (hch : w.conn.channel = some ch) (hfd : 0 ≤ ch.fd)
    (h : w.isendTurn ch buf sended r = (w', sended', more)) :
    ∃ ch', w'.conn.channel = some ch' ∧ 0 ≤ ch'.fd := by
  cases isendTurn_cases h with
  | bytes | none | interrupted | full | fail => exact ⟨ch, hch, hfd⟩
  | enable => exact ⟨ch.enableWrite true, rfl, hfd⟩

/-- Every call of `isend` that returns is a run of the connection. -/
theorem run_isend {msg : Buffer} {own : Bool} {c : Caller} (hwf : msg.WF) (hch : w.conn.channel = some ch)
    (hfd : 0 ≤ ch.fd) (hlt : sended < msg.size) (hle : sended + accepted rets ≤ msg.size)
    (h : w.isend msg.content sended rets = some (w', sended', [])) :
    Run Step ⟨w, .sending msg sended own c⟩ (rets.map .write)
      ⟨w'.setMsg own (msg.consume sended'), .user c⟩ := by
  rw [← length_content hwf] at hlt hle
  induction rets generalizing w ch sended with
  | nil =>
    rw [isend_nil hlt] at h
    cases h
  | cons r rets ih =>
    have hcount : accepted (r :: rets) = r.count + accepted rets := rfl
    have hfd' : ch.fd < 0 → ∃ e, r = .error (.other e) := fun hneg => absurd hfd (Int.not_le.mpr hneg)
    obtain ⟨⟨v, sended₁, more⟩, hturn⟩ : ∃ t, w.isendTurn ch msg.content sended r = t := ⟨_, rfl⟩
    rw [isend_cons hlt hch hturn] at h
    cases more with
    | false =>
      cases h
      exact .single (.writeDone hch hturn (.inl rfl) hfd')
    | true =>
      obtain ⟨ch', hch', hfd₁⟩ := isendTurn_fd hch hfd hturn
      obtain ⟨hsended, -⟩ := isendTurn_world hturn
      by_cases hlt₁ : sended₁ < msg.content.length
      · have hstep : Step ⟨w, .sending msg sended own c⟩ (.write r) ⟨v, .sending msg sended₁ own c⟩ :=
          .write hch hturn (by rwa [← length_content hwf]) hfd'
        exact .cons hstep (ih hch' hfd₁ hlt₁ (by omega) h)
      · rw [if_pos rfl, isend_done (Nat.not_lt.mp hlt₁)] at h
        cases h
        have hall : sended' = msg.size := by
          rw [← length_content hwf]
          omega
        exact .single (.writeDone hch hturn (.inr hall) hfd')

/-- And so is every call of `send`. -/
theorem run_send {msg : WFBuffer} {own : Bool} {c : Caller} {left : Buffer} (houtput : w.conn.output.WF)
    (hown : own = true → w.conn.input = msg) (hfd : ∀ ch, w.conn.channel = some ch → 0 ≤ ch.fd)
    (hle : accepted rets ≤ msg.1.size) (h : w.sendRun msg own rets = some (w', left, [])) :
    ∃ es, Run Step ⟨w, .user c⟩ (.send msg own :: es) ⟨w', .user c⟩ ∧ ∀ e ∈ es, ∃ r ∈ rets, e = .write r := by
  obtain ⟨v, msg', hpassed, ⟨hdone, rfl, rfl⟩ | ⟨⟨hch, hsize⟩, u, sended, hisend, rfl, rfl⟩⟩ := sendRun_cases h
  · have hdone' : w.conn.channel = none ∨ left.size = 0 := by
      cases send_cases hpassed with
      | absorbed | direct | dropped => exact hdone
    exact ⟨[], .single (.sendDone hown hpassed hdone'), nofun⟩
  · refine ⟨rets.map .write, ?_, fun e he => ?_⟩
    · cases send_cases hpassed with
      | absorbed =>
        obtain ⟨-, hwf, -, hempty, -⟩ := absorb_spec houtput msg.2
        exact absurd ((content_eq_nil_iff hwf).mp hempty) hsize
      | @direct ch hsome =>
        refine .cons (.send hown hpassed hsome hsize) ?_
        exact run_isend msg.2 hsome (hfd ch hsome) (Nat.pos_of_ne_zero hsize) (by omega) hisend
      | dropped hnone => exact absurd hnone hch
    · obtain ⟨r, hr, rfl⟩ := List.mem_map.mp he
      exact ⟨r, hr, rfl⟩

end TcpConn

end NetLibrary
