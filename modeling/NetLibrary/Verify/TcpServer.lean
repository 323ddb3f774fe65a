import NetLibrary.Theory.Custody
import NetLibrary.Model.TcpServer
import NetLibrary.Verify.EventLoop.Tasks
import NetLibrary.Verify.TcpConn.LifeCycle

/-!
# What becomes of an accepted descriptor

Between `accept` and `attach` a descriptor is a number in a closure. Nobody closes it where
`getpeername` or `getsockname` fails, nor where the queue of the event loop turns the closure away. The
server is a system of custody: the holders of a descriptor are the closures in the queue and the channels
of the connections.
-/

namespace NetLibrary.TcpServer
open LTS Threads TcpConn

variable {α : Type} {P n base : Nat} {listenfd taskCapacity : Int} {s s' : Server α} {e : Event α}
  {es : List (Event α)} {fd : Int}

/-! ## Holders -/

/-- `own` is a descriptor, and it is `fd`. -/
def refers (own fd : Int) : Bool := 0 ≤ own ∧ own = fd

/-- The channel of this connection has this descriptor. A closed channel has none. -/
def owns (l : Life α) (fd : Int) : Bool := (l.w.conn.channel.map Channel.fd).any (refers · fd)

/-- This closure has captured this descriptor. -/
def captures (fd : Int) : Task α → Bool
  | .addcon clifd _ _ => refers clifd fd
  | .other => false

/-- The tasks that are queued or being executed. -/
def pending (loop : EventLoop.Sys τ) : List τ := loop.pc.running.toList ++ loop.tasks.items

def Server.holders (s : Server α) (fd : Int) : Nat :=
  (pending s.loop).countP (captures fd) + s.conns.countP (owns · fd)

def Server.custody (s : Server α) : Custody.State Int := ⟨s.sockets, s.holders⟩

def Event.toCustody : Event α → Custody.Event Int
  | .accept a added => .issue a.clifd added
  | .close _ fd _ => if 0 < fd then .release fd else .other
  | _ => .other

/-! ## The queue -/

/-- What a step puts into the queue and what it finishes. -/
theorem pending_step {loop loop' : EventLoop.Sys τ} {e : EventLoop.Event τ}
    (h : EventLoop.Step P loop e loop') :
    pending loop ++ EventLoop.accepted [e] = EventLoop.finished [e] ++ pending loop' := by
  calc pending loop ++ EventLoop.accepted [e]
    _ = loop.pc.running.toList ++ (loop.tasks.items ++ EventLoop.accepted [e]) := List.append_assoc ..
    _ = loop.pc.running.toList ++ (EventLoop.popped [e] ++ loop'.tasks.items) := by
      rw [EventLoop.conserved (.single h)]
    _ = EventLoop.finished [e] ++ pending loop' := by
      rw [← List.append_assoc, h.running, List.append_assoc, pending]

theorem pending_push {loop loop' : EventLoop.Sys τ} {i : Nat} {v : τ} {added : Bool}
    (h : EventLoop.Step P loop (.push i v added) loop') :
    pending loop' = pending loop ++ if added then [v] else [] := by
  cases added
  · exact (pending_step h).symm
  · exact (pending_step h).symm

theorem pending_taskEnd {loop loop' : EventLoop.Sys τ} {v : τ}
    (h : EventLoop.Step P loop (.taskEnd v) loop') : pending loop = v :: pending loop' :=
  (List.append_nil _).symm.trans (pending_step h)

/-- The other steps of the event loop post and execute other closures. -/
theorem count_allowed {loop : EventLoop.Sys (Task α)} {e : EventLoop.Event (Task α)} (hallows : s.Allows e)
    (h : EventLoop.Step P s.loop e loop) :
    (pending loop).countP (captures fd) = (pending s.loop).countP (captures fd) := by
  cases e with
  | push i v added =>
    obtain ⟨rfl, -⟩ := hallows
    rw [pending_push h, List.countP_append]
    cases added
    · rfl
    · rfl
  | taskEnd v =>
    obtain ⟨rfl, -⟩ := hallows
    rw [pending_taskEnd h]
    rfl
  | pop | store | wakeup | write | loop | test | poll | read | dispatchEnd | timersEnd =>
    have heq := pending_step h
    have heq : pending s.loop ++ [] = [] ++ pending loop := heq
    rw [List.append_nil, List.nil_append] at heq
    rw [heq]

/-! ## The connections -/

theorem handled_fd {w w' : World} {ch : Channel} {p : PollRet} {next ctl : Ctl}
    (h : Handled w ch p next w' ctl) (hch : w.conn.channel = some ch) :
    w'.conn.channel.map Channel.fd = some ch.fd := by
  cases h with
  | connect => rfl
  | fail _ _ hclean =>
    rw [hclean.keeps.channel, hch]
    rfl
  | connected | other =>
    rw [hch]
    rfl

/-- A handler leaves the descriptor of the channel alone. -/
theorem handles_fd {l l' : Life α} {e : Life.Event α} (h : Life.Step l e l') (hhandles : handles e = true) :
    l'.w.conn.channel.map Channel.fd = l.w.conn.channel.map Channel.fd := by
  cases h with
  | connect | onRead | useInput | callbackRet | callbackCleanup => rfl
  | handleRead _ hch hhandle => exact (handled_fd (handleRead_cases hhandle) hch).trans (by rw [hch]; rfl)
  | handleWrite _ hch hhandle => exact (handled_fd (handleWrite_cases hhandle) hch).trans (by rw [hch]; rfl)
  | read _ _ hturn => exact congrArg _ (readTurn_cases hturn).keeps.channel
  | attach | attachCallback | attachEnd | close => cases hhandles

/-- `Channel::close` closes a descriptor that is positive. -/
theorem close_fd {l l' : Life α} {ch : Channel} {p : PollRet} (h : Life.Step l (.close p) l')
    (hch : l.w.conn.channel = some ch) :
    l'.w.conn.channel.map Channel.fd = some (if 0 < ch.fd then -1 else ch.fd) := by
  cases h with
  | close _ hch' hclose =>
    obtain rfl := Option.some.inj (hch.symm.trans hch')
    rcases close_cases hclose with ⟨hfd, hhandled⟩ | ⟨hfd, rfl, -⟩
    · rw [if_pos hfd]
      exact handled_fd hhandled rfl
    · rw [if_neg hfd, hch]
      rfl

/-- A new connection has the descriptor that it is attached to. -/
theorem attach_fd [Inhabited α] {l : Life α} {clifd : Int} {localAddr peer : α}
    (h : Life.Step (s.view { localAddr := default, peer := default })
      (.attach s.base s.poller clifd localAddr peer) l) :
    l.w.conn.channel.map Channel.fd = some clifd := by
  cases h with
  | attach => rfl
  | attachCallback _ hdelete =>
    obtain ⟨-, hctl⟩ := Life.deleteChannel_none hdelete rfl
    cases hctl

/-! ## Custody -/

theorem refers_self {own : Int} (h : 0 ≤ own) : refers own fd = decide (fd = own) := by
  simp [refers, h, eq_comm]

theorem refers_closed : refers (-1) fd = false := rfl

theorem owns_eq {l : Life α} {own : Int} (h : l.w.conn.channel.map Channel.fd = some own) :
    owns l fd = refers own fd := congrArg (·.any (refers · fd)) h

theorem captures_eq {a : Accepted α} {v : Task α} (h : a.addcon = some v) :
    captures fd v = refers a.clifd fd := by
  rw [Accepted.addcon] at h
  split at h
  · cases h
    rfl
  · cases h

theorem addcon_isSome_iff {a : Accepted α} :
    a.addcon.isSome = true ↔ a.peer.isSome = true ∧ a.localAddr.isSome = true := by
  rw [Accepted.addcon]
  cases a.peer <;> cases a.localAddr <;> simp

/-- The descriptors without a holder are those of the turns that put nothing into the queue. -/
theorem lost_mem_iff :
    (∃ fd, .issue fd false ∈ es.map Event.toCustody) ↔ ∃ a, .accept a false ∈ es := by
  constructor
  · rintro ⟨fd, hmem⟩
    obtain ⟨e, he, heq⟩ := List.mem_map.mp hmem
    cases e with
    | accept a added =>
      cases heq
      exact ⟨a, he⟩
    | close i fd' p =>
      rw [Event.toCustody] at heq
      split at heq
      · cases heq
      · cases heq
    | loop | onConnRead | handleAccept | acceptEnd | addcon | conn => cases heq
  · rintro ⟨a, he⟩
    exact ⟨a.clifd, List.mem_map.mpr ⟨_, he, rfl⟩⟩

variable [Inhabited α]

/-- Every step is a step of the system of custody. -/
theorem Step.refines (h : Step P s e s') : Custody.Step s.custody e.toCustody s'.custody := by
  cases h with
  | loop hallows hloop =>
    refine .other rfl fun fd => ?_
    simp only [Server.custody, Server.holders, count_allowed hallows hloop]
  | onConnRead | handleAccept | acceptEnd => exact .other rfl fun _ => rfl
  | @accept a v added _ _ hunused haddcon hpush =>
    cases added with
    | true =>
      refine .keep hunused.2 rfl fun fd => ?_
      simp only [Server.custody, Server.holders, pending_push hpush, List.countP_append, if_true,
        List.countP_singleton, captures_eq haddcon, refers_self hunused.1, decide_eq_true_eq]
      omega
    | false =>
      refine .lose hunused.2 rfl fun fd => ?_
      simp only [Server.custody, Server.holders, pending_push hpush]
      rw [if_neg Bool.false_ne_true, List.append_nil]
  | acceptNext _ hunused => exact .lose hunused.2 rfl fun _ => rfl
  | @addcon clifd localAddr peer loop l _ hloop hattach =>
    refine .other rfl fun fd => ?_
    have hown := attach_fd hattach
    have howns : owns { l with w := { l.w with conn := { l.w.conn with readcb := s.readcb } } } fd =
      refers clifd fd := owns_eq hown
    have hcaptures : captures fd (.addcon clifd localAddr peer) = refers clifd fd := rfl
    simp only [Server.custody, Server.holders, pending_taskEnd hloop, List.countP_append,
      List.countP_cons, List.countP_nil, hcaptures, howns]
    omega
  | @conn a b l l' _ _ hconns hhandles hstep =>
    refine .other rfl fun fd => ?_
    have howns : owns l' fd = owns l fd := congrArg (·.any (refers · fd)) (handles_fd hstep hhandles)
    simp only [Server.custody, Server.holders, hconns, List.countP_append, List.countP_cons, howns]
  | @close a b l l' ch p _ hconns hch hstep =>
    have howns : ∀ fd, owns l fd = refers ch.fd fd := fun fd => owns_eq (by rw [hch]; rfl)
    have howns' : ∀ fd, owns l' fd = refers (if 0 < ch.fd then -1 else ch.fd) fd := fun fd =>
      owns_eq (close_fd hstep hch)
    by_cases hfd : 0 < ch.fd
    · simp only [Event.toCustody, if_pos hfd] at howns' ⊢
      refine .release rfl fun fd => ?_
      simp only [Server.custody, Server.holders, hconns, List.countP_append, List.countP_cons, howns, howns',
        refers_self hfd.le, decide_eq_true_eq, refers_closed, Bool.false_eq_true, if_false]
      omega
    · simp only [Event.toCustody, if_neg hfd] at howns' ⊢
      refine .other rfl fun fd => ?_
      simp only [Server.custody, Server.holders, hconns, List.countP_append, List.countP_cons, howns, howns']

theorem run_refines (h : Run (Step P) (Server.init α base listenfd taskCapacity n) es s) :
    Run Custody.Step {} (es.map Event.toCustody) s.custody := by
  obtain ⟨a, hrun, rfl⟩ := h.simulation_map (R := fun t a => a = t.custody) (a := {}) rfl
    (by
      rintro s a e t rfl hstep
      exact ⟨_, hstep.refines, rfl⟩)
  exact hrun

/-! ## Hand-over -/

/-- Both calls for the names of the socket succeed, and the queue has room for `addcon`. -/
def HandsOver (s : Server α) : Event α → Prop
  | .accept a _ => a.peer.isSome = true ∧ a.localAddr.isSome = true ∧
    (s.loop.tasks.capacity = 0 ∨ s.loop.tasks.items.length < s.loop.tasks.capacity)
  | _ => True

theorem Step.loop_cases (h : Step P s e s') :
    s'.loop = s.loop ∨ ∃ e, EventLoop.Step P s.loop e s'.loop := by
  cases h with
  | loop _ hloop | accept _ _ _ hloop | addcon _ hloop => exact .inr ⟨_, hloop⟩
  | onConnRead | handleAccept | acceptNext | acceptEnd | conn | close => exact .inl rfl

/-- What the event loop does in a run of the server is a run of it. -/
theorem run_loop (h : Run (Step P) (Server.init α base listenfd taskCapacity n) es s) :
    ∃ es, Run (EventLoop.Step P) (EventLoop.Sys.init (Task α) taskCapacity n) es s.loop := by
  induction h with
  | nil => exact ⟨[], .nil⟩
  | snoc _ hs ih =>
    obtain ⟨es, hrun⟩ := ih
    rcases hs.loop_cases with heq | ⟨e, hloop⟩
    · rw [heq]
      exact ⟨es, hrun⟩
    · exact ⟨es ++ [e], hrun.snoc hloop⟩

/-- A turn hands its descriptor over exactly when it puts `addcon` into the queue. -/
theorem Step.handsOver_iff (h : Step P s e s') (hexit : s.loop.tasks.exit = false) :
    HandsOver s e ↔ ∀ a, e ≠ .accept a false := by
  cases h with
  | @accept a v added _ _ _ haddcon hpush =>
    have hsome : a.peer.isSome = true ∧ a.localAddr.isSome = true :=
      addcon_isSome_iff.mp (by rw [haddcon]; rfl)
    have hroom := hpush.room_iff hexit
    cases added with
    | true => exact iff_of_true ⟨hsome.1, hsome.2, hroom.mpr nofun⟩ nofun
    | false =>
      refine iff_of_false (fun hhands => ?_) fun h => h _ rfl
      exact hroom.mp hhands.2.2 _ _ rfl
  | @acceptNext a _ _ haddcon =>
    refine iff_of_false (fun hhands => ?_) fun h => h _ rfl
    have hsome := addcon_isSome_iff.mpr ⟨hhands.1, hhands.2.1⟩
    rw [haddcon] at hsome
    cases hsome
  | loop | onConnRead | handleAccept | acceptEnd | addcon | conn | close => exact iff_of_true trivial nofun

theorem run_handsOver_iff (h : Run (Step P) (Server.init α base listenfd taskCapacity n) es s) :
    Run (guarded HandsOver (Step P)) (Server.init α base listenfd taskCapacity n) es s ↔
      ∀ a, .accept a false ∉ es := by
  have hiff : Run (guarded HandsOver (Step P)) (Server.init α base listenfd taskCapacity n) es s ↔
      Run (guarded (fun _ e => ∀ a, e ≠ .accept a false) (Step P))
        (Server.init α base listenfd taskCapacity n) es s :=
    run_guarded_iff fun hrun hs => by
      obtain ⟨_, hloop⟩ := run_loop hrun
      exact hs.handsOver_iff (EventLoop.run_tasks_exit hloop)
  rw [hiff, run_guarded_event_iff]
  constructor
  · intro hall a hmem
    exact hall.2 _ hmem a rfl
  · intro hall
    refine ⟨h, ?_⟩
    rintro e hmem a rfl
    exact hall a hmem

/-- **Every accepted descriptor is accounted for** once the tasks have been executed: each descriptor that
`accept` has returned has been closed or belongs to the channel of exactly one connection. This holds
exactly in the runs in which `getpeername` and `getsockname` succeed for each of them and the queue has
room for its `addcon`. -/
theorem sockets_accounted_iff (h : Run (Step P) (Server.init α base listenfd taskCapacity n) es s)
    (hrunning : s.loop.pc.running = none) (hitems : s.loop.tasks.items = []) :
    (∀ k ∈ s.sockets, k.2 = true ∨ s.conns.countP (owns · k.1) = 1) ↔
      Run (guarded HandsOver (Step P)) (Server.init α base listenfd taskCapacity n) es s := by
  have hholders : ∀ fd, s.holders fd = s.conns.countP (owns · fd) := by
    intro fd
    rw [Server.holders, pending, hrunning, hitems]
    exact Nat.zero_add _
  have haccounted := Custody.accounted_iff (run_refines h)
  simp only [Custody.Accounted, Server.custody, hholders] at haccounted
  rw [haccounted, run_handsOver_iff h, ← not_exists, ← not_exists, lost_mem_iff]

/-- The loop thread is in `handleAccept`. -/
def accepting : Server Nat :=
  { Server.init Nat 0 3 0 0 with
    accepting := true
    loop := { EventLoop.Sys.init (Task Nat) 0 0 with pc := .dispatch false false } }

theorem run_accepting : Run (guarded HandsOver (Step 1)) (Server.init Nat 0 3 0 0)
    [.loop .loop, .loop .test, .loop (.poll false), .handleAccept] accepting := by
  refine .cons ⟨trivial, .loop rfl (.loop rfl rfl)⟩ ?_
  refine .cons ⟨trivial, .loop rfl (.test rfl)⟩ ?_
  refine .cons ⟨trivial, .loop rfl (.poll rfl (absurd · Bool.false_ne_true))⟩ ?_
  refine .cons ⟨trivial, .handleAccept rfl (by decide) rfl rfl⟩ ?_
  exact .nil

/-- A socket becomes a connection. -/
theorem sockets_accounted_iff_single : ∃ es s, Run (Step 1) (Server.init Nat 0 3 0 0) es s ∧
    s.sockets = [(5, false)] ∧ ∀ k ∈ s.sockets, k.2 = true ∨ s.conns.countP (owns · k.1) = 1 := by
  have hrest : ∃ s, Run (guarded HandsOver (Step 1)) accepting
      [.accept ⟨5, some 10, some 20⟩ true, .loop (.write 0), .acceptEnd, .loop .dispatchEnd,
        .loop .timersEnd, .loop .test, .loop (.poll true), .loop .read,
        .loop (.pop (some (.addcon 5 20 10))), .addcon 5 20 10] s ∧
      s.sockets = [(5, false)] ∧ s.loop.pc.running = none ∧ s.loop.tasks.items = [] := by
    refine ⟨?s, ?run, ?facts⟩
    case run =>
      refine .cons ⟨⟨rfl, rfl, .inl rfl⟩, .accept rfl ⟨by decide, nofun⟩ rfl (.push ⟨rfl, fun _ => rfl⟩ rfl)⟩ ?_
      refine .cons ⟨trivial, .loop trivial (.write rfl nofun (by decide))⟩ ?_
      refine .cons ⟨trivial, .acceptEnd rfl rfl⟩ ?_
      refine .cons ⟨trivial, .loop rfl (.dispatchEnd rfl rfl)⟩ ?_
      refine .cons ⟨trivial, .loop rfl (.timersEnd rfl rfl)⟩ ?_
      refine .cons ⟨trivial, .loop rfl (.test rfl)⟩ ?_
      refine .cons ⟨trivial, .loop rfl (.poll rfl fun _ => by decide)⟩ ?_
      refine .cons ⟨trivial, .loop rfl (.read rfl rfl)⟩ ?_
      refine .cons ⟨trivial, .loop rfl (.pop rfl rfl)⟩ ?_
      refine .cons ⟨trivial, .addcon rfl (.taskEnd rfl rfl) (.attach (p := ⟨0, 0⟩) rfl rfl)⟩ ?_
      exact .nil
    case facts => exact ⟨rfl, rfl, rfl⟩
  obtain ⟨s, hrest, hsockets, hrunning, hitems⟩ := hrest
  have hrun := run_accepting.append hrest
  have hplain := hrun.mono And.right
  exact ⟨_, s, hplain, hsockets, (sockets_accounted_iff hplain hrunning hitems).mpr hrun⟩

/-- `getpeername` fails for a socket that the peer has reset. -/
theorem not_accounted : ¬∀ (P n base : Nat) (listenfd taskCapacity : Int) (es : List (Event Nat))
    (s : Server Nat), Run (Step P) (Server.init Nat base listenfd taskCapacity n) es s →
    s.loop.pc.running = none → s.loop.tasks.items = [] →
    ∀ k ∈ s.sockets, k.2 = true ∨ s.conns.countP (owns · k.1) = 1 := by
  intro h
  have haccept : Step 1 accepting (.accept ⟨5, none, some 20⟩ false)
      { accepting with sockets := [(5, false)] } := .acceptNext rfl ⟨by decide, nofun⟩ rfl rfl
  have hrun := ((run_accepting.mono And.right).snoc haccept).snoc (.acceptEnd rfl rfl)
  have haccounted := h 1 0 0 3 0 _ _ hrun rfl rfl (5, false) (.head _)
  rcases haccounted with hclosed | howned
  · cases hclosed
  · cases howned

end NetLibrary.TcpServer
