import NetLibrary.Model.RawServer
import NetLibrary.Theory.Run

/-!
# What the clients of `raw-example` read

Each client gets whole copies of `httpstr` and then the beginning of one more, at most one copy for each
`read` that has ended in a blank line, and a descriptor that is used again starts afresh (`responses`). But
nothing waits for a socket to become writable: after `EAGAIN` the rest of a copy stays unsent until the
client asks again (`response_stalls`).
-/

namespace NetLibrary.RawServer
open Function LTS TcpConn

variable {httpstr : List UInt8} {sersock fd w n : Nat} {s s' : State} {sock : Sock} {e : Event}
  {es : List Event} {bytes readed received : List UInt8} {busy busy' : Prop}

/-! ## One client -/

/-- What a client has got, when `w` bytes of a copy are written and when `sendRes` is at it. -/
structure Fits (httpstr : List UInt8) (w : Nat) (busy : Prop) (sock : Sock) : Prop where
  written : w ≤ httpstr.length
  sent : ∃ k, sock.sent = (List.replicate k httpstr).flatten ++ httpstr.take w ∧ k ≤ sock.asked ∧
    (0 < w ∨ busy → k < sock.asked)

theorem Fits.mono (h : Fits httpstr w busy sock) (hbusy : busy' → busy) : Fits httpstr w busy' sock := by
  obtain ⟨k, hsent, hle, hlt⟩ := h.sent
  exact ⟨h.written, k, hsent, hle, fun hw => hlt (hw.imp_right hbusy)⟩

theorem Fits.hear (h : Fits httpstr w busy sock) : Fits httpstr w busy (sock.hear bytes) := by
  obtain ⟨k, hsent, hle, hlt⟩ := h.sent
  have hasked : sock.asked ≤ (sock.hear bytes).asked := by
    dsimp only [Sock.hear]
    split
    · exact Nat.le_succ _
    · exact Nat.le_refl _
  exact ⟨h.written, k, hsent, Nat.le_trans hle hasked, fun hw => Nat.lt_of_lt_of_le (hlt hw) hasked⟩

/-- A `read` that ends in a blank line asks for a copy, or for the rest of one. -/
theorem Fits.ask (h : Fits httpstr w busy sock) (hblank : blank (sock.received ++ bytes) = true) :
    Fits httpstr w True (sock.hear bytes) := by
  obtain ⟨k, hsent, hle, -⟩ := h.sent
  have hasked : (sock.hear bytes).asked = sock.asked + 1 := by
    dsimp only [Sock.hear]
    rw [if_pos hblank]
  exact ⟨h.written, k, hsent, hasked ▸ Nat.le_succ_of_le hle, fun _ => hasked ▸ Nat.lt_succ_of_le hle⟩

theorem Fits.push (h : Fits httpstr w True sock) (hn : n ≤ httpstr.length - w) :
    Fits httpstr (w + n) True (sock.push ((httpstr.drop w).take n)) := by
  obtain ⟨k, hsent, hle, hlt⟩ := h.sent
  have hw := h.written
  refine ⟨by omega, k, ?_, hle, fun _ => hlt (.inr trivial)⟩
  dsimp only [Sock.push]
  rw [hsent, List.append_assoc, ← List.take_add]

theorem Fits.finish (h : Fits httpstr w True sock) (hall : httpstr.length - w = 0) :
    Fits httpstr 0 False sock := by
  obtain ⟨k, hsent, -, hlt⟩ := h.sent
  have hlast : k < sock.asked := hlt (.inr trivial)
  refine ⟨Nat.zero_le _, k + 1, ?_, hlast, fun hw => absurd hw (by simp)⟩
  rw [hsent, List.take_of_length_le (by omega), List.replicate_succ', List.flatten_append]
  simp

theorem fits_new {id : Nat} {events : BitVec 32} : Fits httpstr 0 False { id, events } :=
  ⟨Nat.zero_le _, 0, rfl, Nat.le_refl 0, fun hw => absurd hw (by simp)⟩

/-- What ends in a blank line, after whatever was read before it. -/
theorem blank_suffix (h : readed <:+ received) (hlen : 4 < readed.length) (hblank : blank readed = true) :
    blank received = true := by
  obtain ⟨pre, rfl⟩ := h
  have hdrop : ∀ k, k ≤ 4 →
      (pre ++ readed).drop ((pre ++ readed).length - k) = readed.drop (readed.length - k) := by
    intro k hk
    have hadd : (pre ++ readed).length - k = pre.length + (readed.length - k) := by
      rw [List.length_append]
      omega
    rw [hadd, List.drop_append, List.drop_of_length_le (Nat.le_add_right _ _), List.nil_append]
    congr 1
    omega
  rw [blank, hdrop 2 (by decide), hdrop 4 (by decide)]
  exact hblank

/-! ## The server -/

/-- `sendRes` is at the response of `fd`. -/
def Busy (s : State) (fd : Nat) : Prop := ∃ left back, s.ctl = .write fd left back

/-- What is known at each place. No event of the descriptor that is served is still to come. -/
def CtlOk (httpstr : List UInt8) (sersock : Nat) (s : State) : Prop :=
  match s.ctl with
  | .read fd => fd ≠ sersock ∧ fd ∉ s.active.map Active.fd
  | .write fd left back => fd ≠ sersock ∧ fd ∉ s.active.map Active.fd ∧ s.socks fd ≠ none ∧ back = true ∧
    left = httpstr.length - (s.con fd).written
  | _ => True

structure Inv (httpstr : List UInt8) (sersock : Nat) (s : State) : Prop where
  closed : ∀ fd, s.socks fd = none → s.cons fd = none
  listen : s.socks sersock = none
  nodup : (s.active.map Active.fd).Nodup
  active : ∀ a ∈ s.active, (a.fd = sersock ∨ s.socks a.fd ≠ none) ∧
    a.event &&& ~~~(EPOLLIN ||| EPOLLERR ||| EPOLLHUP) = 0
  sock : ∀ {fd sock}, s.socks fd = some sock → sock.events = EPOLLIN ∧
    (s.con fd).readed <:+ sock.received ∧ Fits httpstr (s.con fd).written (Busy s fd) sock
  ctl : CtlOk httpstr sersock s

theorem Inv.init : Inv httpstr sersock {} where
  closed _ _ := rfl
  listen := rfl
  nodup := .nil
  active _ h := nomatch h
  sock h := nomatch h
  ctl := trivial

theorem con_congr (h : s'.cons fd = s.cons fd) : s'.con fd = s.con fd := by rw [State.con, State.con, h]

/-- A step that serves `fd` and has nothing to do with the other descriptors. -/
theorem Inv.serve (h : Inv httpstr sersock s) (hfd : fd ≠ sersock) (hno : fd ∉ s.active.map Active.fd)
    (hactive : s'.active = s.active) (hcons : ∀ x, x ≠ fd → s'.cons x = s.cons x)
    (hsocks : ∀ x, x ≠ fd → s'.socks x = s.socks x) (hbusy : ∀ x, x ≠ fd → ¬Busy s' x)
    (hclosed : s'.socks fd = none → s'.cons fd = none)
    (hsock : ∀ sock, s'.socks fd = some sock → sock.events = EPOLLIN ∧
      (s'.con fd).readed <:+ sock.received ∧ Fits httpstr (s'.con fd).written (Busy s' fd) sock)
    (hctl : CtlOk httpstr sersock s') : Inv httpstr sersock s' where
  closed x hx := by
    by_cases hxfd : x = fd
    · subst hxfd
      exact hclosed hx
    · rw [hcons x hxfd]
      exact h.closed x (hsocks x hxfd ▸ hx)
  listen := (hsocks sersock hfd.symm).trans h.listen
  nodup := hactive ▸ h.nodup
  active a ha := by
    rw [hactive] at ha
    have hne : a.fd ≠ fd := fun heq => hno (heq ▸ List.mem_map_of_mem ha)
    rw [hsocks a.fd hne]
    exact h.active a ha
  sock {x sock} hx := by
    by_cases hxfd : x = fd
    · subst hxfd
      exact hsock sock hx
    · rw [con_congr (hcons x hxfd)]
      obtain ⟨hevents, hreaded, hfits⟩ := h.sock (hsocks x hxfd ▸ hx)
      exact ⟨hevents, hreaded, hfits.mono fun hb => absurd hb (hbusy x hxfd)⟩
  ctl := hctl

/-- A step to another place. -/
theorem Inv.goto {ctl : Ctl} (h : Inv httpstr sersock s) (hbusy : ∀ x left back, ctl ≠ .write x left back)
    (hctl : CtlOk httpstr sersock { s with ctl }) : Inv httpstr sersock { s with ctl } where
  closed := h.closed
  listen := h.listen
  nodup := h.nodup
  active := h.active
  sock hx := by
    obtain ⟨hevents, hreaded, hfits⟩ := h.sock hx
    exact ⟨hevents, hreaded, hfits.mono fun ⟨left, back, hb⟩ => absurd hb (hbusy _ left back)⟩
  ctl := hctl

/-- `close` and `erase`. -/
theorem Inv.closing {ctl : Ctl} (h : Inv httpstr sersock s) (hfd : fd ≠ sersock)
    (hno : fd ∉ s.active.map Active.fd) (hbusy : ∀ x left back, ctl ≠ .write x left back)
    (hctl : CtlOk httpstr sersock { s with cons := update s.cons fd none, socks := update s.socks fd none, ctl }) :
    Inv httpstr sersock { s with cons := update s.cons fd none, socks := update s.socks fd none, ctl } := by
  refine h.serve hfd hno rfl (fun x hx => update_of_ne hx _ _) (fun x hx => update_of_ne hx _ _)
    (fun x _ ⟨left, back, hb⟩ => hbusy x left back hb) (fun _ => update_self ..) (fun sock hsock => ?_) hctl
  cases (update_self fd none s.socks).symm.trans hsock

/-- A step after which the descriptor has an entry. -/
theorem Inv.put {con : Con} {ctl : Ctl} (h : Inv httpstr sersock s) (hfd : fd ≠ sersock)
    (hno : fd ∉ s.active.map Active.fd) (hevents : sock.events = EPOLLIN) (hreaded : con.readed <:+ sock.received)
    (hfits : Fits httpstr con.written (∃ left back, ctl = .write fd left back) sock)
    (hctl : ctl = .read fd ∨ ctl = .write fd (httpstr.length - con.written) true) : Inv httpstr sersock
      { s with cons := update s.cons fd (some con), socks := update s.socks fd (some sock), ctl } := by
  have hcon : State.con { s with cons := update s.cons fd (some con), socks := update s.socks fd (some sock), ctl }
      fd = con := by simp [State.con]
  refine h.serve hfd hno rfl (fun x hx => update_of_ne hx _ _) (fun x hx => update_of_ne hx _ _)
    (fun x hx ⟨left, back, hb⟩ => ?_) (fun hnone => ?_) (fun sock' hsock => ?_) ?_
  · rcases hctl with rfl | rfl
    · cases hb
    · cases hb
      exact hx rfl
  · cases (update_self fd (some sock) s.socks).symm.trans hnone
  · cases (update_self fd (some sock) s.socks).symm.trans hsock
    rw [hcon]
    exact ⟨hevents, hreaded, hfits⟩
  · rcases hctl with rfl | rfl
    · exact ⟨hfd, hno⟩
    · refine ⟨hfd, hno, ?_, rfl, by rw [hcon]⟩
      show update s.socks fd (some sock) fd ≠ none
      rw [update_self]
      exact Option.some_ne_none sock

/-- What `handleRead` does with the result of a `read`. It calls `sendRes` for a blank line. -/
theorem handleRead_cases (httpstr : List UInt8) {r : ReadRet}
    (hopen : s.socks fd = none → ∃ e, r = .error (.other e)) :
    s.handleRead httpstr fd r =
        { s with cons := update s.cons fd none, socks := update s.socks fd none, ctl := .loop } ∨
      s.handleRead httpstr fd r = { s with ctl := .loop } ∨
      ∃ bytes sock con ctl, s.socks fd = some sock ∧ con = ⟨(s.con fd).readed ++ bytes, (s.con fd).written⟩ ∧
        s.handleRead httpstr fd r = { s with
          cons := update s.cons fd (some con), socks := update s.socks fd (some (sock.hear bytes)), ctl } ∧
        (ctl = .read fd ∨ ctl = .write fd (httpstr.length - con.written) true ∧
          4 < con.readed.length ∧ blank con.readed = true) := by
  cases r with
  | error e =>
    cases e with
    | EAGAIN => exact .inr (.inl rfl)
    | EINTR | other => exact .inl rfl
  | data bytes =>
    cases bytes with
    | nil => exact .inl rfl
    | cons b bytes =>
      obtain ⟨sock, hsock⟩ : ∃ sock, s.socks fd = some sock := by
        cases hcase : s.socks fd with
        | some sock => exact ⟨sock, rfl⟩
        | none => obtain ⟨e, he⟩ := hopen hcase; cases he
      refine .inr (.inr ⟨b :: bytes, sock, ⟨(s.con fd).readed ++ b :: bytes, (s.con fd).written⟩, ?_⟩)
      rw [State.handleRead]
      · dsimp only
        rw [hsock, Option.map_some]
        split
        · rename_i hasked
          obtain ⟨hlen, hblank⟩ := Bool.and_eq_true_iff.mp hasked
          simp only [State.sendRes, State.con, update_self, update_idem, Option.getD_some]
          exact ⟨_, trivial, trivial, rfl, .inr ⟨rfl, of_decide_eq_true hlen, hblank⟩⟩
        · exact ⟨_, rfl, rfl, rfl, .inl rfl⟩
      · exact List.cons_ne_nil b bytes

/-- What `sendRes` does with the result of a `write`. -/
theorem write_cases (httpstr : List UInt8) (s : State) (fd left : Nat) (back : Bool) (r : WriteRet) :
    (∃ n, r = .ret (n + 1) ∧ s.write httpstr fd left back r = { s with
        cons := update s.cons fd (some ⟨(s.con fd).readed, (s.con fd).written + (n + 1)⟩)
        socks := update s.socks fd
          ((s.socks fd).map fun sock => Sock.push sock ((httpstr.drop (s.con fd).written).take (n + 1)))
        ctl := .write fd (left - (n + 1)) back }) ∨
      ∃ ctl, ctl = (if back then .read fd else .loop) ∧
        (left = 0 ∧ s.write httpstr fd left back r = { s with cons := update s.cons fd none, ctl } ∨
          s.write httpstr fd left back r = { s with ctl } ∨
          s.write httpstr fd left back r =
            { s with cons := update s.cons fd none, socks := update s.socks fd none, ctl }) := by
  have hret : s.write httpstr fd left back r =
      (if left = 0 then (s.erase fd).ret fd back else if r = .error .EAGAIN then s.ret fd back
        else ((s.close fd).erase fd).ret fd back) → ∃ ctl, ctl = (if back then .read fd else .loop) ∧
        (left = 0 ∧ s.write httpstr fd left back r = { s with cons := update s.cons fd none, ctl } ∨
          s.write httpstr fd left back r = { s with ctl } ∨
          s.write httpstr fd left back r =
            { s with cons := update s.cons fd none, socks := update s.socks fd none, ctl }) := by
    intro heq
    refine ⟨_, rfl, ?_⟩
    rw [heq]
    split
    · rename_i hall
      exact .inl ⟨hall, rfl⟩
    split
    · exact .inr (.inl rfl)
    · exact .inr (.inr rfl)
  cases r with
  | error => exact .inr (hret rfl)
  | ret n =>
    cases n with
    | zero => exact .inr (hret rfl)
    | succ n => exact .inl ⟨n, rfl, rfl⟩

/-- The client's bytes are added to `readed`, and `sendRes` is called if they end in a blank line. -/
theorem Inv.read {r : ReadRet} (h : Inv httpstr sersock s) (hctl : s.ctl = .read fd)
    (hopen : s.socks fd = none → ∃ e, r = .error (.other e)) :
    Inv httpstr sersock (s.handleRead httpstr fd r) := by
  have hok := h.ctl
  simp only [CtlOk, hctl] at hok
  obtain ⟨hfd, hno⟩ := hok
  rcases handleRead_cases httpstr hopen with
    heq | heq | ⟨bytes, sock, con, ctl, hsock, hcon, heq, hplace⟩
  · rw [heq]
    exact h.closing hfd hno nofun trivial
  · rw [heq]
    exact h.goto nofun trivial
  obtain ⟨hevents, hreaded, hfits⟩ := h.sock hsock
  have hsuffix : con.readed <:+ sock.received ++ bytes := by
    rw [hcon]
    exact List.suffix_append_self_iff.mpr hreaded
  have hwritten : con.written = (s.con fd).written := by rw [hcon]
  rw [heq]
  rcases hplace with rfl | ⟨rfl, hlen, hblank⟩
  · exact h.put hfd hno hevents hsuffix (hwritten ▸ hfits.hear.mono fun ⟨_, _, hb⟩ => nomatch hb) (.inl rfl)
  · have hasked := hfits.ask (blank_suffix hsuffix hlen hblank)
    exact h.put hfd hno hevents hsuffix (hwritten ▸ hasked.mono fun _ => trivial) (.inr rfl)

/-- A part of the response is written, or `sendRes` returns. -/
theorem Inv.write {left : Nat} {back : Bool} {r : WriteRet} (h : Inv httpstr sersock s)
    (hctl : s.ctl = .write fd left back) (hr : ∀ n, r = .ret n → n ≤ left) :
    Inv httpstr sersock (s.write httpstr fd left back r) := by
  have hok := h.ctl
  simp only [CtlOk, hctl] at hok
  obtain ⟨hfd, hno, hopen, rfl, hleft⟩ := hok
  obtain ⟨sock, hsock⟩ := Option.ne_none_iff_exists'.mp hopen
  obtain ⟨hevents, hreaded, hfits⟩ := h.sock hsock
  have hfits : Fits httpstr (s.con fd).written True sock := hfits.mono fun _ => ⟨_, _, hctl⟩
  rcases write_cases httpstr s fd left true r with
    ⟨n, rfl, heq⟩ | ⟨ctl, hplace, hcases⟩
  · have hn : n + 1 ≤ httpstr.length - (s.con fd).written := hleft ▸ hr _ rfl
    have hrest : left - (n + 1) = httpstr.length - ((s.con fd).written + (n + 1)) := by omega
    rw [heq, hsock, Option.map_some, hrest]
    exact h.put hfd hno hevents hreaded ((hfits.push hn).mono fun _ => trivial) (.inr rfl)
  obtain rfl : ctl = .read fd := hplace
  rcases hcases with ⟨hall, heq⟩ | heq | heq
  · rw [heq]
    refine h.serve hfd hno rfl (fun x hx => update_of_ne hx _ _) (fun _ _ => rfl)
      (fun x _ ⟨_, _, hb⟩ => nomatch hb) (fun _ => update_self ..) (fun sock' hsock' => ?_) ⟨hfd, hno⟩
    cases hsock.symm.trans hsock'
    have hcon : State.con { s with cons := update s.cons fd none, ctl := .read fd } fd = {} := by simp [State.con]
    rw [hcon]
    exact ⟨hevents, List.nil_suffix, (hfits.finish (hleft ▸ hall)).mono fun ⟨_, _, hb⟩ => nomatch hb⟩
  · rw [heq]
    exact h.goto nofun ⟨hfd, hno⟩
  · rw [heq]
    exact h.closing hfd hno nofun ⟨hfd, hno⟩

theorem Inv.wait {active : List Active} (h : Inv httpstr sersock s) (hnodup : (active.map Active.fd).Nodup)
    (hactive : ∀ a ∈ active, ∃ events, s.registered sersock a.fd = some events ∧
      a.event &&& ~~~(events ||| EPOLLERR ||| EPOLLHUP) = 0) :
    Inv httpstr sersock { s with active, ctl := .loop } where
  closed := h.closed
  listen := h.listen
  nodup := hnodup
  active a ha := by
    obtain ⟨events, hregistered, hevent⟩ := hactive a ha
    rw [State.registered] at hregistered
    split at hregistered
    · rename_i hfd
      cases hregistered
      exact ⟨.inl hfd, hevent⟩
    · obtain ⟨sock, hsock, rfl⟩ := Option.map_eq_some_iff.mp hregistered
      rw [(h.sock hsock).1] at hevent
      exact ⟨.inr (by rw [hsock]; exact Option.some_ne_none sock), hevent⟩
  sock hx := by
    obtain ⟨hevents, hreaded, hfits⟩ := h.sock hx
    exact ⟨hevents, hreaded, hfits.mono fun ⟨_, _, hb⟩ => nomatch hb⟩
  ctl := trivial

/-- `EPOLLOUT` is not registered. -/
theorem not_epollout {event : BitVec 32} (h : event &&& ~~~(EPOLLIN ||| EPOLLERR ||| EPOLLHUP) = 0) :
    event &&& EPOLLOUT = 0 := by
  have hout : EPOLLOUT = ~~~(EPOLLIN ||| EPOLLERR ||| EPOLLHUP) &&& EPOLLOUT := by decide
  rw [hout, ← BitVec.and_assoc, h]
  exact BitVec.zero_and

/-- `handleWrite` is not called. -/
theorem Inv.dispatched {event : BitVec 32} {active : List Active} (h : Inv httpstr sersock s) (hctl : s.ctl = .loop)
    (hactive : s.active = ⟨fd, event⟩ :: active) :
    Inv httpstr sersock (State.dispatch httpstr { s with active } sersock fd event) ∧
      ∃ ctl, (∀ x left back, ctl ≠ .write x left back) ∧
        State.dispatch httpstr { s with active } sersock fd event = { s with active, ctl } := by
  have hnodup := h.nodup
  rw [hactive, List.map_cons, List.nodup_cons] at hnodup
  have hpopped : Inv httpstr sersock { s with active } := by
    refine ⟨h.closed, h.listen, hnodup.2, fun a ha => ?_, h.sock, ?_⟩
    · exact h.active a (hactive ▸ List.mem_cons_of_mem _ ha)
    · simp only [CtlOk, hctl]
  obtain ⟨-, hevent⟩ := h.active ⟨fd, event⟩ (hactive ▸ List.mem_cons_self)
  unfold State.dispatch
  split
  · split
    · exact ⟨hpopped.goto nofun trivial, .accept, nofun, rfl⟩
    · rename_i hfd
      exact ⟨hpopped.goto nofun ⟨hfd, hnodup.1⟩, .read fd, nofun, rfl⟩
  · rw [if_neg (not_not_intro (not_epollout hevent))]
    exact ⟨hpopped.goto nofun trivial, .exited, nofun, rfl⟩

theorem Inv.accept {r : Option Nat} (h : Inv httpstr sersock s)
    (hr : ∀ fd, r = some fd → fd ≠ sersock ∧ s.socks fd = none) : Inv httpstr sersock (s.accept r) := by
  cases r with
  | none => exact h.goto nofun trivial
  | some fd =>
    obtain ⟨hfd, hfree⟩ := hr fd rfl
    have hno : fd ∉ s.active.map Active.fd := by
      intro hmem
      obtain ⟨a, ha, rfl⟩ := List.mem_map.mp hmem
      exact (h.active a ha).1.elim hfd fun hopen => hopen hfree
    have hcon : (s.accept (some fd)).con fd = {} := by
      show (s.cons fd).getD {} = {}
      rw [h.closed fd hfree, Option.getD_none]
    refine h.serve hfd hno rfl (fun _ _ => rfl) (fun x hx => update_of_ne hx _ _)
      (fun x _ ⟨_, _, hb⟩ => nomatch hb) (fun _ => h.closed fd hfree) (fun sock hsock => ?_) trivial
    cases (update_self fd _ s.socks).symm.trans hsock
    rw [hcon]
    exact ⟨rfl, List.nil_suffix, fits_new.mono fun ⟨_, _, hb⟩ => nomatch hb⟩

theorem Inv.step (h : Inv httpstr sersock s) (hs : Step httpstr sersock s e s') : Inv httpstr sersock s' := by
  cases hs with
  | wait _ _ hnodup hactive => exact h.wait hnodup hactive
  | dispatch hctl hactive => exact (h.dispatched hctl hactive).1
  | done => exact h.goto nofun trivial
  | accept _ hr => exact h.accept hr
  | read hctl _ hopen => exact h.read hctl hopen
  | write hctl hr => exact h.write hctl hr

theorem run_inv (h : Run (Step httpstr sersock) {} es s) : Inv httpstr sersock s := h.invariant .init .step

/-- **Whole copies and a part of one.** Whatever the clients and the sockets do, and however the descriptors are
used again, each client that is connected has got whole copies of `httpstr` and then what is `written` of one
more, and it has asked for each of them. A descriptor that is closed has no entry in `cons`, and `handleWrite` is
never called. -/
theorem responses (h : Run (Step httpstr sersock) {} es s) :
    (∀ fd sock, s.socks fd = some sock → ∃ k,
      sock.sent = (List.replicate k httpstr).flatten ++ httpstr.take (s.con fd).written ∧ k ≤ sock.asked ∧
        (0 < (s.con fd).written → k < sock.asked)) ∧
    (∀ fd, s.socks fd = none → s.cons fd = none) ∧ ∀ fd left, s.ctl ≠ .write fd left false := by
  have hinv := run_inv h
  refine ⟨fun fd sock hsock => ?_, hinv.closed, fun fd left hctl => ?_⟩
  · obtain ⟨-, -, hfits⟩ := hinv.sock hsock
    obtain ⟨k, hsent, hle, hlt⟩ := hfits.sent
    exact ⟨k, hsent, hle, fun hw => hlt (.inl hw)⟩
  · have hok := hinv.ctl
    simp only [CtlOk, hctl] at hok
    cases hok.2.2.2.1

/-- One client of a server that listens at descriptor 3, which asks once. The socket takes one byte. -/
def oneByte : List Event :=
  [.wait [⟨3, 0x1⟩], .dispatch 3, .accept (some 5), .done, .wait [⟨5, 0x1⟩], .dispatch 5,
    .read 5 (.data [71, 69, 84, 10, 10]), .write 5 (.ret 1), .write 5 (.error .EAGAIN),
    .read 5 (.error .EAGAIN), .done]

/-- The client sends another byte. -/
def anotherByte : List Event := [.wait [⟨5, 0x1⟩], .dispatch 5, .read 5 (.data [32])]

theorem oneByte_run : ∃ s s' b, Run (Step [72, 84] 3) {} oneByte s ∧ Run (Step [72, 84] 3) s anotherByte s' ∧
    s.ctl = .wait ∧ s.socks 5 = some ⟨0, 0x1, [71, 69, 84, 10, 10], [72], 1⟩ ∧ (s.con 5).written = 1 ∧
    s'.socks 5 = some b ∧ b.id = 0 ∧ b.asked = 1 := by
  refine ⟨?s, ?s', ⟨0, 0x1, [71, 69, 84, 10, 10, 32], [72], 1⟩, ?run, ?more, ?facts⟩
  case run =>
    refine .cons (.wait rfl (by decide) (by decide) ?_) ?_
    · intro a ha
      obtain rfl := List.mem_singleton.mp ha
      exact ⟨EPOLLIN, rfl, by decide⟩
    refine .cons (.dispatch rfl rfl) ?_
    refine .cons (.accept rfl fun fd hfd => ?_) ?_
    · cases hfd
      exact ⟨by decide, rfl⟩
    refine .cons (.done rfl rfl) ?_
    refine .cons (.wait rfl (by decide) (by decide) ?_) ?_
    · intro a ha
      obtain rfl := List.mem_singleton.mp ha
      exact ⟨EPOLLIN, rfl, by decide⟩
    refine .cons (.dispatch rfl rfl) ?_
    refine .cons (.read rfl (fun _ h => ?_) nofun) ?_
    · cases h
      decide
    refine .cons (.write rfl fun n h => ?_) ?_
    · cases h
      decide
    refine .cons (.write rfl nofun) ?_
    refine .cons (.read rfl nofun nofun) ?_
    refine .cons (.done rfl rfl) ?_
    exact .nil
  case more =>
    refine .cons (.wait rfl (by decide) (by decide) ?_) ?_
    · intro a ha
      obtain rfl := List.mem_singleton.mp ha
      exact ⟨EPOLLIN, rfl, by decide⟩
    refine .cons (.dispatch rfl rfl) ?_
    refine .cons (.read rfl (fun _ h => ?_) nofun) ?_
    · cases h
      decide
    exact .nil
  case facts => exact ⟨rfl, rfl, rfl, rfl, rfl, rfl⟩

theorem responses_oneByte : ∃ s, Run (Step [72, 84] 3) {} oneByte s ∧
    ∃ sock k, s.socks 5 = some sock ∧ sock.sent = (List.replicate k [72, 84]).flatten ++ [72] ∧
      k < sock.asked := by
  obtain ⟨s, -, -, hrun, -, -, hsock, hwritten, -⟩ := oneByte_run
  obtain ⟨k, hsent, -, hlt⟩ := (responses hrun).1 5 _ hsock
  rw [hwritten] at hsent hlt
  exact ⟨s, hrun, _, k, hsock, hsent, hlt (by decide)⟩

/-! ## After `EAGAIN` -/

/-- What one step does to the socket at a descriptor. -/
inductive Change (fd : Nat) (s s' : State) : Prop
  | same : s'.socks fd = s.socks fd → ¬Busy s' fd → Change fd s s'
  | closed : s'.socks fd = none → Change fd s s'
  | new {b : Sock} : s'.socks fd = some b → b.id = s.accepted → s'.accepted = s.accepted + 1 → Change fd s s'
  /-- `sendRes` is called only for bytes that end in a blank line. -/
  | heard {b : Sock} {text : List UInt8} : s.socks fd = some b → s'.socks fd = some (b.hear text) →
    (Busy s' fd → blank (b.received ++ text) = true) → Change fd s s'
  | pushed {b : Sock} {text : List UInt8} : Busy s fd → s.socks fd = some b → s'.socks fd = some (b.push text) →
    Change fd s s'

theorem handleRead_change {x : Nat} {r : ReadRet} (hinv : Inv httpstr sersock s)
    (hopen : s.socks x = none → ∃ e, r = .error (.other e)) : Change fd s (s.handleRead httpstr x r) := by
  rcases handleRead_cases httpstr hopen with
    heq | heq | ⟨bytes, sock, con, ctl, hsock, hcon, heq, hplace⟩
  · rw [heq]
    by_cases hx : fd = x
    · exact .closed (hx ▸ update_self ..)
    · exact .same (update_of_ne hx _ _) fun ⟨_, _, hb⟩ => nomatch hb
  · rw [heq]
    exact .same rfl fun ⟨_, _, hb⟩ => nomatch hb
  rw [heq]
  by_cases hx : fd = x
  · subst hx
    refine .heard hsock (update_self ..) fun ⟨left, back, hb⟩ => ?_
    rcases hplace with rfl | ⟨rfl, hlen, hblank⟩
    · cases hb
    · refine blank_suffix ?_ hlen hblank
      rw [hcon]
      exact List.suffix_append_self_iff.mpr (hinv.sock hsock).2.1
  · refine .same (update_of_ne hx _ _) fun ⟨left, back, hb⟩ => ?_
    rcases hplace with rfl | ⟨rfl, -, -⟩
    · cases hb
    · cases hb
      exact hx rfl

theorem write_change {x left : Nat} {back : Bool} {r : WriteRet} (hctl : s.ctl = .write x left back)
    (hopen : s.socks x ≠ none) : Change fd s (s.write httpstr x left back r) := by
  obtain ⟨sock, hsock⟩ := Option.ne_none_iff_exists'.mp hopen
  rcases write_cases httpstr s x left back r with
    ⟨n, rfl, heq⟩ | ⟨ctl, hplace, hcases⟩
  · rw [heq, hsock, Option.map_some]
    by_cases hx : fd = x
    · subst hx
      exact .pushed ⟨left, back, hctl⟩ hsock (update_self ..)
    · refine .same (update_of_ne hx _ _) fun ⟨_, _, hb⟩ => ?_
      cases hb
      exact hx rfl
  have hrest : ∀ left' back', ctl ≠ .write fd left' back' := by
    rintro left' back' rfl
    split at hplace
    · cases hplace
    · cases hplace
  rcases hcases with ⟨-, heq⟩ | heq | heq
  · rw [heq]
    exact .same rfl fun ⟨_, _, hb⟩ => hrest _ _ hb
  · rw [heq]
    exact .same rfl fun ⟨_, _, hb⟩ => hrest _ _ hb
  · rw [heq]
    by_cases hx : fd = x
    · exact .closed (hx ▸ update_self ..)
    · exact .same (update_of_ne hx _ _) fun ⟨_, _, hb⟩ => hrest _ _ hb

theorem Step.change (fd : Nat) (hinv : Inv httpstr sersock s) (hs : Step httpstr sersock s e s') :
    Change fd s s' := by
  cases hs with
  | wait | done => exact .same rfl fun ⟨_, _, hb⟩ => nomatch hb
  | dispatch hctl hactive =>
    obtain ⟨-, ctl, hrest, heq⟩ := hinv.dispatched hctl hactive
    rw [heq]
    exact .same rfl fun ⟨left, back, hb⟩ => hrest fd left back hb
  | @accept r _ hr =>
    cases r with
    | none => exact .same rfl fun ⟨_, _, hb⟩ => nomatch hb
    | some x =>
      by_cases hx : fd = x
      · subst hx
        exact .new (update_self ..) rfl rfl
      · exact .same (update_of_ne hx _ _) fun ⟨_, _, hb⟩ => nomatch hb
  | read hctl _ hopen => exact handleRead_change hinv hopen
  | write hctl _ =>
    have hok := hinv.ctl
    simp only [CtlOk, hctl] at hok
    exact write_change hctl hok.2.2.1

theorem Step.accepted_le (hinv : Inv httpstr sersock s) (hs : Step httpstr sersock s e s') :
    s.accepted ≤ s'.accepted := by
  cases hs with
  | wait | done => exact Nat.le_refl _
  | dispatch hctl hactive =>
    obtain ⟨-, ctl, -, heq⟩ := hinv.dispatched hctl hactive
    rw [heq]
  | @accept r _ _ =>
    cases r with
    | none => exact Nat.le_refl _
    | some x => exact Nat.le_succ _
  | read _ _ hopen =>
    rcases handleRead_cases httpstr hopen with heq | heq | ⟨_, _, _, _, -, -, heq, -⟩
    · rw [heq]
    · rw [heq]
    · rw [heq]
  | @write fd left back r =>
    rcases write_cases httpstr s fd left back r with ⟨_, -, heq⟩ | ⟨_, -, ⟨-, heq⟩ | heq | heq⟩
    · rw [heq]
    · rw [heq]
    · rw [heq]
    · rw [heq]

/-- The client has not asked since its socket was `a`, or it has got nothing more. -/
def Waits (fd : Nat) (a : Sock) (s : State) : Prop :=
  ∀ b, s.socks fd = some b → b.id = a.id →
    a.asked ≤ b.asked ∧ (b.asked = a.asked → b.sent = a.sent ∧ ¬Busy s fd)

theorem Waits.step {a : Sock} (h : Waits fd a s) (hinv : Inv httpstr sersock s) (hid : a.id < s.accepted)
    (hs : Step httpstr sersock s e s') : Waits fd a s' := by
  intro b hb hsame
  cases hs.change fd hinv with
  | same hsocks hrest =>
    obtain ⟨hle, hsent⟩ := h b (hsocks ▸ hb) hsame
    exact ⟨hle, fun hasked => ⟨(hsent hasked).1, hrest⟩⟩
  | closed hnone =>
    rw [hnone] at hb
    cases hb
  | new hnew hnumber =>
    cases hnew.symm.trans hb
    exact absurd (hsame ▸ hnumber) (Nat.ne_of_lt hid)
  | @heard c text hsock hheard hask =>
    cases hheard.symm.trans hb
    obtain ⟨hle, hsent⟩ := h c hsock hsame
    have hasked : (c.hear text).asked = if blank (c.received ++ text) then c.asked + 1 else c.asked := rfl
    rw [hasked]
    split
    · exact ⟨Nat.le_succ_of_le hle, fun heq => absurd heq (by omega)⟩
    · rename_i hnot
      exact ⟨hle, fun heq => ⟨(hsent heq).1, fun hbusy => hnot (hask hbusy)⟩⟩
  | @pushed c text hbusy hsock hpushed =>
    cases hpushed.symm.trans hb
    obtain ⟨hle, hsent⟩ := h c hsock hsame
    exact ⟨hle, fun heq => absurd hbusy (hsent heq).2⟩

/-- The numbers of the sockets have been given out. -/
def Numbered (s : State) : Prop := ∀ fd sock, s.socks fd = some sock → sock.id < s.accepted

theorem Numbered.step (h : Numbered s) (hinv : Inv httpstr sersock s) (hs : Step httpstr sersock s e s') :
    Numbered s' := by
  intro fd b hb
  have hle := hs.accepted_le hinv
  cases hs.change fd hinv with
  | same hsocks => exact Nat.lt_of_lt_of_le (h fd b (hsocks ▸ hb)) hle
  | closed hnone =>
    rw [hnone] at hb
    cases hb
  | new hnew hnumber hnext =>
    cases hnew.symm.trans hb
    rw [hnumber, hnext]
    exact Nat.lt_succ_self _
  | @heard c text hsock hheard =>
    cases hheard.symm.trans hb
    have hold : c.id < s.accepted := h fd c hsock
    exact Nat.lt_of_lt_of_le hold hle
  | @pushed c text _ hsock hpushed =>
    cases hpushed.symm.trans hb
    have hold : c.id < s.accepted := h fd c hsock
    exact Nat.lt_of_lt_of_le hold hle

/-- **A response is not continued by itself.** While the client has not asked again, nothing is written to it,
even where a response to it was cut short. -/
theorem response_stalls {a b : Sock} {es' : List Event} (hreach : Run (Step httpstr sersock) {} es s)
    (hwait : s.ctl = .wait) (ha : s.socks fd = some a) (h : Run (Step httpstr sersock) s es' s')
    (hb : s'.socks fd = some b) (hid : b.id = a.id) (hasked : b.asked = a.asked) : b.sent = a.sent := by
  have hfirst : Waits fd a s := by
    intro b hb _
    cases ha.symm.trans hb
    exact ⟨Nat.le_refl _, fun _ => ⟨rfl, fun ⟨_, _, hbusy⟩ => nomatch hwait.symm.trans hbusy⟩⟩
  have hnumbered : Inv httpstr sersock s ∧ Numbered s :=
    hreach.invariant (I := fun s => Inv httpstr sersock s ∧ Numbered s) ⟨.init, nofun⟩
      fun hI hs => ⟨hI.1.step hs, hI.2.step hI.1 hs⟩
  have hlt : a.id < s.accepted := hnumbered.2 fd a ha
  have hlast : Inv httpstr sersock s' ∧ a.id < s'.accepted ∧ Waits fd a s' :=
    h.invariant (I := fun s => Inv httpstr sersock s ∧ a.id < s.accepted ∧ Waits fd a s)
      ⟨hnumbered.1, hlt, hfirst⟩ fun hI hs =>
        ⟨hI.1.step hs, Nat.lt_of_lt_of_le hI.2.1 (hs.accepted_le hI.1), hI.2.2.step hI.1 hI.2.1 hs⟩
  exact ((hlast.2.2 b hb hid).2 hasked).1

theorem response_stalls_byte : ∃ s s' b, Run (Step [72, 84] 3) {} oneByte s ∧
    Run (Step [72, 84] 3) s anotherByte s' ∧ s'.socks 5 = some b ∧ b.sent = [72] := by
  obtain ⟨s, s', b, hrun, hmore, hwait, hsock, -, hb, hid, hasked⟩ := oneByte_run
  exact ⟨s, s', b, hrun, hmore, hb, response_stalls hrun hwait hsock hmore hb hid hasked⟩

end NetLibrary.RawServer
