import NetLibrary.Model.LifeCycle
import NetLibrary.Verify.TcpConn.Close

/-!
# The edges of the life cycle

A connection takes only the four edges of `Edge` as long as `attach` is called where its guard holds.
The guard does not stop a call: `attach` on a used connection puts it back to `Handshaking`, closes its
channel and gives it another one. So the life cycle is respected exactly in the runs without such a call
(`respects_iff`).
-/

namespace NetLibrary.TcpConn
open LTS

variable {α : Type} {w w' : World} {ch : Channel} {p : PollRet} {r : ReadRet} {ctl next : Ctl}
  {l l' : Life α} {calls : List Call}

/-- The changes of `state_`. -/
inductive Edge : Status → Status → Prop
  | refl {s} : Edge s s
  | attach : Edge .invalid .handshaking
  | connect : Edge .handshaking .connected
  | fail : Edge .handshaking .failed
  | close : Edge .connected .closed

namespace Life

/-- Where the state is while a call is in progress. No `attach` waits for a callback. -/
def Placed (state : Status) : List Call → Prop
  | [] | [.callback .ret] => True
  | [.callback .cleanup] => state = .handshaking ∨ state = .connected
  | [.reading] => state = .connected
  | _ => False

/-- There is one call in progress at most. -/
theorem Placed.tail {state : Status} {f : Call} (h : Placed state (f :: calls)) : calls = [] := by
  match f, calls with
  | _, [] => rfl
  | .callback .ret, _ :: _ | .callback .cleanup, _ :: _ | .reading, _ :: _ | .attach .., _ :: _ =>
    exact h.elim

theorem Placed.of_invalid {state : Status} (h : Placed .invalid calls) : Placed state calls := by
  match calls with
  | [] | [.callback .ret] => trivial
  | [.callback .cleanup] =>
    rcases h with h | h
    · cases h
    · cases h
  | [.reading] => cases h
  | .attach .. :: _ | .callback .ret :: _ :: _ | .callback .cleanup :: _ :: _ | .reading :: _ :: _ =>
    exact h.elim

structure Inv (w : World) (calls : List Call) : Prop where
  /-- Nothing sets `destPort_`. -/
  destPort : w.conn.destPort ≤ 0
  channel : w.conn.state = .invalid → w.conn.channel = none
  id : ∀ ch, w.conn.channel = some ch → ch.id ≤ w.lastId
  placed : Placed w.conn.state calls

theorem Inv.init : Inv {} [] where
  destPort := by decide
  channel _ := rfl
  id := nofun
  placed := trivial

theorem Inv.keeps (h : Inv w calls) (hkeeps : Keeps w w') {calls' : List Call}
    (hplaced : Placed w'.conn.state calls') : Inv w' calls' where
  destPort := hkeeps.destPort ▸ h.destPort
  channel hstate := hkeeps.channel.trans (h.channel (hkeeps.state hstate))
  id ch hch := hkeeps.lastId ▸ h.id ch (hkeeps.channel ▸ hch)
  placed := hplaced

/-! ## The handlers -/

theorem finishCleanup_edge (h : w.conn.state = .handshaking ∨ w.conn.state = .connected) :
    Edge w.conn.state w.finishCleanup.conn.state := by
  rw [World.finishCleanup]
  rcases h with hstate | hstate
  · rw [if_pos hstate, hstate]
    exact .fail
  · rw [if_neg (by simp [hstate]), hstate]
    exact .close

theorem Inv.cleanup (h : Inv w calls)
    (hstate : w.conn.state = .handshaking ∨ w.conn.state = .connected)
    (hclean : Cleanup w w' ctl) : Inv w' ctl.calls ∧ Edge w.conn.state w'.conn.state := by
  cases hclean with
  | readcb => exact ⟨h.keeps .refl hstate, .refl⟩
  | done => exact ⟨h.keeps Cleanup.done.keeps trivial, finishCleanup_edge hstate⟩

theorem Inv.detached (h : Inv w calls) (hch : w.conn.channel = some ch) : Inv (w.detached ch) [] := by
  refine ⟨h.destPort, fun hstate => ?_, fun ch' hch' => ?_, trivial⟩
  · rw [h.channel hstate] at hch
    cases hch
  · cases hch'
    exact h.id ch hch

theorem Inv.handled (h : Inv w []) (hch : w.conn.channel = some ch)
    (hnext : ∀ state, state = .connected → Placed state next.calls)
    (hcases : Handled w ch p next w' ctl) :
    Inv w' ctl.calls ∧ Edge w.conn.state w'.conn.state := by
  cases hcases with
  | connect hstate =>
    rw [hstate]
    refine ⟨⟨h.destPort, nofun, fun ch' hch' => ?_, hnext _ rfl⟩, .connect⟩
    cases hch'
    exact h.id ch hch
  | fail hstate _ hclean => exact h.cleanup (.inl hstate) hclean
  | connected hstate => exact ⟨h.keeps .refl (hnext _ hstate), .refl⟩
  | other => exact ⟨h, .refl⟩

theorem Inv.turned (h : Inv w calls) (hstate : w.conn.state = .connected)
    (hcases : Turned w ch r w' ctl) : Inv w' ctl.calls ∧ Edge w.conn.state w'.conn.state := by
  cases hcases with
  | more => exact ⟨h.keeps keeps_setInput hstate, .refl⟩
  | blocked hafter =>
    refine ⟨h.keeps keeps_setInput ?_, .refl⟩
    rcases hafter with rfl | rfl
    · trivial
    · trivial
  | @ended input _ _ _ hclean =>
    have hroom : Inv (w.setInput input) calls := h.keeps keeps_setInput h.placed
    exact hroom.cleanup (.inr hstate) hclean

theorem placed_reading {state : Status} (h : state = .connected) :
    Placed state (Ctl.calls .reading) := h

theorem placed_event {state : Status} : Placed state (Ctl.calls (.user .event)) := trivial

theorem Inv.close (h : Inv w []) (hch : w.conn.channel = some ch) (hclose : w.close ch p = (w', ctl)) :
    Inv w' ctl.calls ∧ Edge w.conn.state w'.conn.state := by
  rcases close_cases hclose with ⟨-, hcases⟩ | ⟨-, rfl, rfl⟩
  · exact (h.detached hch).handled rfl (fun _ => placed_reading) hcases
  · exact ⟨h, .refl⟩

/-! ## `attach` -/

/-- In the state in which `attach` deletes it, the channel is not there or closed, or it is closed now and
`handleRead` fails the handshake. -/
theorem deleteChannel_cases (h : deleteChannel w p = (w', ctl))
    (hstate : w.conn.state = .handshaking) : (w' = w ∧ ctl = .user .event) ∨
      ∃ ch, w.conn.channel = some ch ∧ 0 < ch.fd ∧ Cleanup (w.detached ch) w' ctl := by
  rw [deleteChannel] at h
  split at h
  · rename_i ch hch
    rcases close_cases h with ⟨hfd, hcases⟩ | ⟨-, rfl, rfl⟩
    · refine .inr ⟨ch, hch, hfd, ?_⟩
      cases hcases with
      | connect _ hok => exact absurd hok (not_succeeds (Int.negSucc_lt_zero 0))
      | fail _ _ hclean => exact hclean
      | connected hconnected =>
        have hconnected : w.conn.state = .connected := hconnected
        rw [hstate] at hconnected
        cases hconnected
      | other hne => exact absurd hstate hne
    · exact .inl ⟨rfl, rfl⟩
  · cases h
    exact .inl ⟨rfl, rfl⟩

theorem deleteChannel_none (h : deleteChannel w p = (w', ctl)) (hch : w.conn.channel = none) :
    w' = w ∧ ctl = .user .event := by
  rw [deleteChannel, hch] at h
  cases h
  exact ⟨rfl, rfl⟩

theorem deleteChannel_lastId (h : deleteChannel w p = (w', ctl))
    (hstate : w.conn.state = .handshaking) : w'.lastId = w.lastId := by
  rcases deleteChannel_cases h hstate with ⟨rfl, -⟩ | ⟨ch, -, -, hclean⟩
  · rfl
  · exact hclean.keeps.lastId

/-- In the state `Invalid` there is nothing to delete. -/
theorem Inv.attachable (h : Inv w calls) (hok : w.attachable) :
    w.conn.state = .invalid ∧ w.conn.channel = none := by
  have hstate : w.conn.state = .invalid := by
    by_contra hne
    exact hok (.inl ⟨h.destPort, hne⟩)
  exact ⟨hstate, h.channel hstate⟩

/-! ## The life cycle -/

/-- `attach` is called where its guard holds. -/
def Guarded (l : Life α) : Event α → Prop
  | .attach .. => l.w.attachable
  | _ => True

/-- The state changes along an edge, and an `attach` whose guard does not hold sets nothing. -/
def Respects (l : Life α) (e : Event α) (l' : Life α) : Prop :=
  Edge l.w.conn.state l'.w.conn.state ∧
  ∀ base poller fd localAddr peer, e = .attach base poller fd localAddr peer → ¬l.w.attachable →
    l'.base = l.base ∧ l'.w.conn.channel = l.w.conn.channel ∧ l'.w.conn.state = l.w.conn.state ∧
      l'.localAddr = l.localAddr ∧ l'.peer = l.peer

/-- An `attach` that finds a used connection gives it another channel, or has closed the one it has. -/
theorem Inv.channel_ne {base : Nat} {poller : PollerEpoll} {fd : Int} {localAddr peer : α}
    (h : Inv l.w l.calls) (hs : Step l (.attach base poller fd localAddr peer) l') :
    l'.w.conn.channel ≠ l.w.conn.channel := by
  cases hs with
  | attach hturn hdelete =>
    rename_i w
    have hlast := deleteChannel_lastId hdelete rfl
    have hlast : w.lastId = l.w.lastId := hlast
    intro heq
    have hle := h.id _ heq.symm
    have hle : w.lastId + 1 ≤ l.w.lastId := hle
    omega
  | attachCallback _ hdelete =>
    rcases deleteChannel_cases hdelete rfl with ⟨-, hctl⟩ | ⟨ch, hch, hfd, hclean⟩
    · cases hctl
    · cases hclean with
      | readcb =>
        have hch : l.w.conn.channel = some ch := hch
        intro heq
        rw [hch] at heq
        have hclosed : (-1 : Int) = ch.fd := congrArg Channel.fd (Option.some.inj heq)
        omega

theorem Inv.step {e : Event α} (h : Inv l.w l.calls) (hok : Guarded l e) (hs : Step l e l') :
    Inv l'.w l'.calls ∧ Edge l.w.conn.state l'.w.conn.state := by
  cases hs with
  | connect => exact ⟨h, .refl⟩
  | attach _ hdelete =>
    obtain ⟨hstate, hch⟩ := h.attachable hok
    have hplaced := h.placed
    rw [hstate] at hplaced
    obtain ⟨rfl, -⟩ := deleteChannel_none hdelete hch
    refine ⟨⟨h.destPort, nofun, fun ch hch => ?_, hplaced.of_invalid⟩, hstate ▸ .attach⟩
    cases hch
    exact Nat.le_refl _
  | attachCallback _ hdelete =>
    obtain ⟨-, hch⟩ := h.attachable hok
    obtain ⟨-, hctl⟩ := deleteChannel_none hdelete hch
    cases hctl
  | attachEnd hcalls =>
    have hplaced := h.placed
    rw [hcalls] at hplaced
    obtain rfl := hplaced.tail
    exact hplaced.elim
  | onRead => exact ⟨⟨h.destPort, h.channel, h.id, h.placed⟩, .refl⟩
  | useInput => exact ⟨h.keeps keeps_setInput h.placed, .refl⟩
  | callbackRet hcalls =>
    rw [hcalls] at h
    obtain rfl := h.placed.tail
    exact ⟨h.keeps .refl trivial, .refl⟩
  | callbackCleanup hcalls =>
    rw [hcalls] at h
    obtain rfl := h.placed.tail
    exact ⟨h.keeps Cleanup.done.keeps trivial, finishCleanup_edge h.placed⟩
  | handleRead hcalls hch hhandle =>
    rw [hcalls] at h
    exact h.handled hch (fun _ => placed_reading) (handleRead_cases hhandle)
  | handleWrite hcalls hch hhandle =>
    rw [hcalls] at h
    exact h.handled hch (fun _ _ => placed_event) (handleWrite_cases hhandle)
  | read hcalls hch hturn =>
    rw [hcalls] at h
    obtain rfl := h.placed.tail
    rw [List.append_nil]
    exact h.turned h.placed (readTurn_cases hturn)
  | close hcalls hch hclose =>
    rw [hcalls] at h
    exact h.close hch hclose

/-- A step respects the life cycle exactly when it is not an `attach` whose guard fails. -/
theorem Inv.respects_iff_guarded {e : Event α} (h : Inv l.w l.calls) (hs : Step l e l') :
    Respects l e l' ↔ Guarded l e := by
  constructor
  · intro hrespects
    cases e with
    | attach =>
      by_contra hok
      exact h.channel_ne hs (hrespects.2 _ _ _ _ _ rfl hok).2.1
    | connect | attachEnd | onRead | useInput | callbackEnd | handleRead | handleWrite | read | close =>
      trivial
  · intro hok
    refine ⟨(h.step hok hs).2, ?_⟩
    rintro base poller fd localAddr peer rfl hne
    exact absurd hok hne

/-- **The life cycle.** In the runs in which every `attach` is called where its guard holds, and only in
those, the state changes along the edges of `Edge` alone and an `attach` whose guard does not hold leaves
`base_`, `channel_`, `state_`, `local_` and `peer_` unchanged. -/
theorem respects_iff {localAddr peer : α} {es : List (Event α)} :
    Run (fun l e l' => Respects l e l' ∧ Step l e l') { localAddr, peer } es l ↔
      Run (guarded Guarded Step) { localAddr, peer } es l :=
  run_guarded_iff_of_invariant (I := fun l => Inv l.w l.calls) .init
    (fun h hok hs => (h.step hok hs).1) fun h hs => h.respects_iff_guarded hs

/-- A connection that is connected is attached to another socket. -/
theorem run_reattach : ∃ l l' : Life Nat, Run Step { localAddr := 0, peer := 0 }
      [.attach 1 {} 5 10 20, .handleWrite ⟨1, 0x4⟩] l ∧ Step l (.attach 1 {} 6 10 21) l' ∧
    l.w.conn.state = .connected ∧ l'.w.conn.state = .failed := by
  refine ⟨?l, ?l', ?run, ?again, ?facts⟩
  case run =>
    refine .cons (.attach (p := ⟨0, 0⟩) rfl rfl) ?_
    refine .cons (.handleWrite rfl rfl rfl) ?_
    exact .nil
  case again =>
    refine .attach (p := ⟨0, 0⟩) (w := ?w) ?turn ?delete
    case turn => rfl
    case delete => rfl
  case facts => decide

theorem not_respects : ¬∀ (localAddr peer : Nat) (es : List (Event Nat)) (l l' : Life Nat)
    (e : Event Nat), Run Step { localAddr, peer } es l → Step l e l' → Respects l e l' := by
  intro h
  obtain ⟨l, l', hrun, hstep, hconnected, hfailed⟩ := run_reattach
  have hedge := (h 0 0 _ l l' _ hrun hstep).1
  rw [hconnected, hfailed] at hedge
  cases hedge

end Life

end NetLibrary.TcpConn
