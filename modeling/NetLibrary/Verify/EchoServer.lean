import NetLibrary.Model.EchoServer
import NetLibrary.Verify.TcpConn.Echo
import NetLibrary.Verify.TcpServer

/-!
# What the clients of the echo server get

The connections of the server share a thread, a poller and the descriptors of the process. Each client has
at most one of them (`Owned`), so that what the single connection guarantees to its client holds for all of
them together, in spite of descriptors that are given out again (`clients_conserved`, `clients_served`).
-/

namespace NetLibrary.EchoServer
open LTS TcpConn Echo Buffer

variable {s s' : State} {w w' : World} {c : Con} {ctl : Ctl} {t u : Sys} {e : TcpConn.Event} {ev : Event}
  {es : List Event} {i j k : Nat} {p : Client} {called : Bool}

/-! ## A step of one connection -/

theorem write_fd {ch : Channel} {buf : List Cell} {sended sended' : Nat} {r : WriteRet} {more : Bool}
    (h : w.isendTurn ch buf sended r = (w', sended', more)) (hch : w.conn.channel = some ch) :
    w'.conn.channel.map Channel.fd = some ch.fd := by
  cases isendTurn_cases h with
  | bytes | none | interrupted | full | fail =>
    rw [show w.conn.channel = some ch from hch]
    rfl
  | enable => rfl

theorem setMsg_keeps {own : Bool} {msg : Buffer} :
    (w.setMsg own msg).conn.channel = w.conn.channel ∧ (w.setMsg own msg).wire = w.wire := by
  obtain ⟨input, hinput⟩ : ∃ input, w.setMsg own msg = w.setInput input := setMsg_input
  rw [hinput]
  exact ⟨rfl, rfl⟩

theorem send_keeps {msg left : Buffer} (h : w.send msg = (w', left)) :
    w'.conn.channel = w.conn.channel ∧ w'.wire = w.wire := by
  cases send_cases h with
  | absorbed | direct | dropped => exact ⟨rfl, rfl⟩

/-- The descriptor of a connection after an event. -/
def fdAfter : TcpConn.Event → Int → Int
  | .close _, fd => if 0 < fd then -1 else fd
  | _, fd => fd

theorem step_fd (hs : TcpConn.Step t e u) (hown : own e = true) :
    u.w.conn.channel.map Channel.fd = (t.w.conn.channel.map Channel.fd).map (fdAfter e) := by
  have hsame : ∀ {o : Option Int}, o.map (fun fd => fd) = o := Option.map_id'
  cases hs with
  | attach | onRead | useInput | wait | skip | skipUnknown | openOther | closeOther => cases hown
  | sendDone _ hsend => exact (congrArg _ (setMsg_keeps.1.trans (send_keeps hsend).1)).trans hsame.symm
  | send _ hsend => exact (congrArg _ (send_keeps hsend).1).trans hsame.symm
  | write hch hturn => exact (write_fd hturn hch).trans (by rw [hch]; rfl)
  | writeDone hch hturn => exact (congrArg _ setMsg_keeps.1).trans ((write_fd hturn hch).trans (by rw [hch]; rfl))
  | readcbRet | readcbCleanup => exact hsame.symm
  | handleRead _ hch _ _ hhandle =>
    exact (TcpServer.handled_fd (handleRead_cases hhandle) hch).trans (by rw [hch]; rfl)
  | handleWrite _ hch _ _ _ hhandle =>
    exact (TcpServer.handled_fd (handleWrite_cases hhandle) hch).trans (by rw [hch]; rfl)
  | read hch _ hturn => exact (congrArg _ (readTurn_cases hturn).keeps.channel).trans hsame.symm
  | close hch hclose =>
    rw [hch, Option.map_some, Option.map_some, fdAfter]
    rcases close_cases hclose with ⟨hfd, hhandled⟩ | ⟨hfd, rfl, -⟩
    · rw [if_pos hfd]
      exact TcpServer.handled_fd hhandled rfl
    · rw [if_neg hfd, hch]
      rfl

/-- `writeImp` fails for a descriptor that is closed. -/
theorem write_closed {ch : Channel} {buf : List Cell} {sended sended' : Nat} {r : WriteRet} {more : Bool}
    (hfail : ch.fd < 0 → ∃ e, r = .error (.other e)) (hfd : ch.fd < 0)
    (h : w.isendTurn ch buf sended r = (w', sended', more)) : w'.wire = w.wire := by
  obtain ⟨e, rfl⟩ := hfail hfd
  cases h
  rfl

/-- With a descriptor that is closed nothing is read or written. -/
theorem step_closed (hs : TcpConn.Step t e u) (hown : own e = true)
    (hclosed : ∀ ch, t.w.conn.channel = some ch → ch.fd < 0) : taken t.w e = [] ∧ u.w.wire = t.w.wire := by
  cases hs with
  | attach | onRead | useInput | wait | skip | skipUnknown | openOther | closeOther => cases hown
  | sendDone _ hsend => exact ⟨rfl, setMsg_keeps.2.trans (send_keeps hsend).2⟩
  | send _ hsend => exact ⟨rfl, (send_keeps hsend).2⟩
  | write hch hturn _ hfail => exact ⟨rfl, write_closed hfail (hclosed _ hch) hturn⟩
  | writeDone hch hturn _ hfail => exact ⟨rfl, setMsg_keeps.2.trans (write_closed hfail (hclosed _ hch) hturn)⟩
  | readcbRet | readcbCleanup => exact ⟨rfl, rfl⟩
  | handleRead _ hch _ _ hhandle => exact ⟨rfl, (handleRead_cases hhandle).frame.wire⟩
  | handleWrite _ hch _ _ _ hhandle => exact ⟨rfl, (handleWrite_cases hhandle).frame.wire⟩
  | @read _ _ ch r _ hch _ hturn =>
    refine ⟨?_, (readTurn_cases hturn).frame.wire⟩
    cases r with
    | error => rfl
    | data bytes => simp [taken, hch, Int.not_le.mpr (hclosed ch hch)]
  | close hch hclose =>
    rcases close_cases hclose with ⟨-, hhandled⟩ | ⟨-, rfl, -⟩
    · exact ⟨rfl, hhandled.frame.wire⟩
    · exact ⟨rfl, rfl⟩

/-! ## Who has which client -/

/-- The clients that wait for `accept`, in the order of the backlog, those that wait for `addcon`, and those
that have a connection. -/
def State.holders (s : State) : List Nat := s.backlog ++ (s.tasks.map Prod.snd ++ s.conns.map Con.client)

/-- A descriptor that is captured by a closure, or that a connection has open, leads to the client of this
closure or connection, and no two of them have the same client. -/
structure Owned (s : State) : Prop where
  opened : ∀ c ∈ s.conns, ∀ ch, c.conn.channel = some ch → 0 ≤ ch.fd → s.socks ch.fd = some c.client
  queued : ∀ f ∈ s.tasks, s.socks f.1 = some f.2
  nodup : s.holders.Nodup
  known : ∀ k ∈ s.holders, k < s.clients.length

theorem Owned.init : Owned {} where
  opened _ h := absurd h List.not_mem_nil
  queued _ h := absurd h List.not_mem_nil
  nodup := List.nodup_nil
  known _ h := absurd h List.not_mem_nil

/-- The parts of the state that matter here. -/
theorem Owned.congr (h : Owned s) (hclients : s'.clients.length = s.clients.length)
    (hbacklog : s'.backlog = s.backlog) (hsocks : s'.socks = s.socks) (htasks : s'.tasks = s.tasks)
    (hconns : s'.conns = s.conns) : Owned s' := by
  have hholders : s'.holders = s.holders := by rw [State.holders, hbacklog, htasks, hconns]; rfl
  constructor
  case opened => rw [hconns, hsocks]; exact h.opened
  case queued => rw [htasks, hsocks]; exact h.queued
  case nodup => rw [hholders]; exact h.nodup
  case known => rw [hholders, hclients]; exact h.known

theorem mem_holders_conn (h : c ∈ s.conns) : c.client ∈ s.holders :=
  List.mem_append_right _ (List.mem_append_right _ (List.mem_map_of_mem h))

theorem Owned.connect (h : Owned s) :
    Owned { s with clients := s.clients ++ [{}], backlog := s.backlog ++ [s.clients.length] } := by
  have hperm : (s.backlog ++ [s.clients.length] ++ (s.tasks.map Prod.snd ++ s.conns.map Con.client)).Perm
      (s.clients.length :: s.holders) := by
    rw [List.append_assoc]
    exact List.perm_middle
  refine ⟨h.opened, h.queued, ?_, ?_⟩
  · apply hperm.nodup_iff.mpr
    exact List.nodup_cons.mpr ⟨fun hmem => Nat.lt_irrefl _ (h.known _ hmem), h.nodup⟩
  · intro k hk
    simp only [List.length_append, List.length_singleton]
    rcases List.mem_cons.mp (hperm.mem_iff.mp hk) with rfl | hk
    · exact Nat.lt_succ_self _
    · exact Nat.lt_succ_of_lt (h.known k hk)

theorem Owned.accept {backlog : List Nat} {fd : Int} (h : Owned s) (hbacklog : s.backlog = k :: backlog)
    (hfd : s.Unused fd) (named : Bool) : Owned { s with
      backlog
      socks := Function.update s.socks fd (some k)
      tasks := if named then s.tasks ++ [(fd, k)] else s.tasks } := by
  have hkeep : ∀ {f : Int} {m : Nat}, s.socks f = some m → Function.update s.socks fd (some k) f = some m := by
    intro f m hf
    rw [Function.update_of_ne, hf]
    rintro rfl
    rw [hfd.2.1] at hf
    cases hf
  have hsub : ∀ named : Bool, (backlog ++ ((if named then s.tasks ++ [(fd, k)] else s.tasks).map Prod.snd ++
      s.conns.map Con.client)).Subperm s.holders := by
    intro named
    rw [State.holders, hbacklog]
    cases named with
    | false => exact (List.sublist_cons_self k _).subperm
    | true =>
      refine List.Perm.subperm ?_
      rw [if_pos rfl, List.map_append, List.append_assoc, ← List.append_assoc]
      refine List.perm_middle.trans ?_
      rw [List.append_assoc]
      rfl
  constructor
  case opened => exact fun c hc ch hch hopen => hkeep (h.opened c hc ch hch hopen)
  case queued =>
    intro f hf
    cases named with
    | false => exact hkeep (h.queued f hf)
    | true =>
      rcases List.mem_append.mp hf with hf | hf
      · exact hkeep (h.queued f hf)
      · obtain rfl := List.mem_singleton.mp hf
        exact Function.update_self ..
  case nodup =>
    obtain ⟨l, hperm, hsublist⟩ := hsub named
    exact hperm.nodup_iff.mp (h.nodup.sublist hsublist)
  case known => exact fun m hm => h.known m ((hsub named).subset hm)

theorem Owned.addcon {fd : Int} {tasks : List (Int × Nat)} (h : Owned s) (htasks : s.tasks = (fd, k) :: tasks)
    (hw : World.attach { poller := s.poller, lastId := s.lastId } fd = w) : Owned { s with
      tasks
      poller := w.poller
      lastId := w.lastId
      conns := s.conns ++ [.attached w k] } := by
  have hperm : ∀ c : Con, c.client = k →
      (s.backlog ++ (tasks.map Prod.snd ++ (s.conns ++ [c]).map Con.client)).Perm s.holders := by
    rintro c rfl
    rw [State.holders, htasks, List.map_append, ← List.append_assoc (tasks.map Prod.snd)]
    refine (List.perm_append_left_iff _).mpr ?_
    exact List.perm_append_singleton _ _
  constructor
  case opened =>
    intro c hc ch hch hopen
    rcases List.mem_append.mp hc with hc | hc
    · exact h.opened c hc ch hch hopen
    · obtain rfl := List.mem_singleton.mp hc
      subst hw
      cases hch
      exact h.queued _ (htasks ▸ List.mem_cons_self)
  case queued => exact fun f hf => h.queued f (htasks ▸ List.mem_cons_of_mem _ hf)
  case nodup => exact (hperm _ rfl).nodup_iff.mpr h.nodup
  case known => exact fun m hm => h.known m ((hperm _ rfl).mem_iff.mp hm)

theorem map_client_set (hc : s.conns[i]? = some c) {conn : TcpConn} :
    (s.conns.set i { c with conn }).map Con.client = s.conns.map Con.client := by
  apply List.ext_getElem?
  intro j
  rw [List.getElem?_map, List.getElem?_map, List.getElem?_set]
  split
  · rename_i hij
    subst hij
    split
    · rw [hc]
      rfl
    · rename_i hlen
      rw [List.getElem?_eq_none (Nat.not_lt.mp hlen)]
  · rfl

theorem Owned.eq_of_client {d : Con} (h : Owned s) (hi : s.conns[i]? = some c) (hj : s.conns[j]? = some d)
    (hclient : d.client = c.client) : j = i := by
  have hnodup : (s.conns.map Con.client).Nodup := (List.nodup_append.mp (List.nodup_append.mp h.nodup).2.1).2.1
  have hlt : j < (s.conns.map Con.client).length := by
    rw [List.length_map]
    exact (List.getElem?_eq_some_iff.mp hj).1
  apply (List.getElem?_inj hlt hnodup).mp
  rw [List.getElem?_map, List.getElem?_map, hi, hj, Option.map_some, Option.map_some, hclient]

/-- A close takes nobody else's descriptor. -/
theorem Owned.socksAfter {f : Int} {m : Nat} (h : Owned s) (hc : c ∈ s.conns) (hf : s.socks f = some m)
    (hne : m ≠ c.client) : s.socksAfter c e f = some m := by
  cases e with
  | close p =>
    rw [State.socksAfter]
    cases hch : c.conn.channel with
    | none => exact hf
    | some ch =>
      dsimp only
      split
      · rename_i hfd
        rw [Function.update_of_ne, hf]
        rintro rfl
        rw [h.opened c hc ch hch (Int.le_of_lt hfd)] at hf
        exact hne (Option.some.inj hf).symm
      · exact hf
  | attach | onRead | send | write | useInput | readcbEnd | wait | handleRead | handleWrite | skip | read
    | openOther | closeOther => exact hf

theorem socksAfter_fdAfter {ch : Channel} (hch : c.conn.channel = some ch) (hopen : 0 ≤ fdAfter e ch.fd) :
    0 ≤ ch.fd ∧ s.socksAfter c e (fdAfter e ch.fd) = s.socks ch.fd := by
  cases e with
  | close p =>
    by_cases hfd : 0 < ch.fd
    · rw [fdAfter, if_pos hfd] at hopen
      cases hopen
    · rw [fdAfter, if_neg hfd] at hopen
      simp only [fdAfter, State.socksAfter, hch, if_neg hfd]
      exact ⟨hopen, trivial⟩
  | attach | onRead | send | write | useInput | readcbEnd | wait | handleRead | handleWrite | skip | read
    | openOther | closeOther => exact ⟨hopen, rfl⟩

theorem Owned.conn {clients : List Client} (h : Owned s) (hc : s.conns[i]? = some c) (hown : own e = true)
    (hs : TcpConn.Step (s.view c) e t) (hlen : clients.length = s.clients.length) : Owned { s with
      clients
      socks := s.socksAfter c e
      conns := s.conns.set i { c with conn := t.w.conn }
      poller := t.w.poller
      lastId := t.w.lastId
      cur := i
      ctl := t.ctl
      called } := by
  have hmem : c ∈ s.conns := List.mem_of_getElem? hc
  have hholders : s.backlog ++ (s.tasks.map Prod.snd ++ (s.conns.set i { c with conn := t.w.conn }).map
      Con.client) = s.holders := by
    rw [map_client_set hc]
    rfl
  constructor
  case opened =>
    intro d hd ch hch hopen
    obtain ⟨j, hj⟩ := List.mem_iff_getElem?.mp hd
    rw [List.getElem?_set] at hj
    split at hj
    · split at hj
      · obtain rfl := Option.some.inj hj
        have hfd := step_fd hs hown
        rw [show t.w.conn.channel = some ch from hch] at hfd
        obtain ⟨x, hx, hxfd⟩ := Option.map_eq_some_iff.mp hfd.symm
        obtain ⟨ch₀, hch₀, rfl⟩ := Option.map_eq_some_iff.mp hx
        rw [← hxfd] at hopen ⊢
        obtain ⟨hopen₀, hsocks⟩ := socksAfter_fdAfter (s := s) hch₀ hopen
        exact hsocks.trans (h.opened c hmem ch₀ hch₀ hopen₀)
      · cases hj
    · rename_i hne
      have hd : d ∈ s.conns := List.mem_of_getElem? hj
      refine h.socksAfter hmem (h.opened d hd ch hch hopen) fun hclient => ?_
      exact hne (h.eq_of_client hc hj hclient).symm
  case queued =>
    intro f hf
    refine h.socksAfter hmem (h.queued f hf) fun hclient => ?_
    have hdisj := (List.nodup_append.mp (List.nodup_append.mp h.nodup).2.1).2.2
    exact hdisj _ (List.mem_map_of_mem hf) _ (List.mem_map_of_mem hmem) hclient
  case nodup =>
    rw [State.holders, hholders]
    exact h.nodup
  case known =>
    rw [State.holders, hholders, hlen]
    exact h.known

theorem length_transfer {bytes : List UInt8} {wire : List Cell} :
    (s.transfer c bytes wire).length = s.clients.length := by
  rw [State.transfer]
  split
  · rw [List.length_modify]
  · rfl

theorem Owned.step (h : Owned s) (hs : Step s ev s') : Owned s' := by
  cases hs with
  | connect => exact h.connect
  | write | read => exact h.congr (List.length_modify ..) rfl rfl rfl rfl
  | accept _ hbacklog hfd => exact h.accept hbacklog hfd _
  | addcon _ htasks hw => exact h.addcon htasks hw
  | wait | skip | skipUnknown | openOther | closeOther => exact h.congr rfl rfl rfl rfl rfl
  | conn hc _ hown _ hs => exact h.conn hc hown hs length_transfer

/-! ## What the clients get -/

/-- A connection alone, in a world where nothing has been written. -/
def Con.sys (c : Con) (ctl : Ctl) : Sys := ⟨{ conn := c.conn }, ctl⟩

/-- Where the loop thread is, as a connection sees it. -/
def State.ctlOf (s : State) (i : Nat) : Ctl := if s.cur = i then s.ctl else .user .event

theorem kept_congr (h : Kept ⟨w, ctl⟩) (hconn : w'.conn = w.conn) : Kept ⟨w', ctl⟩ := by
  refine ⟨h.stored.congr hconn, ?_⟩
  have hfits : Echo.Fits w ctl := h.fits
  cases ctl with
  | user => trivial
  | reading | sending =>
    simp only [Echo.Fits, hconn]
    exact hfits

theorem flow_eq : flow ⟨w, ctl⟩ = w.wire ++ flow (Con.sys ⟨w.conn, k⟩ ctl) := by
  cases ctl with
  | user | reading | sending => simp [flow, unsent, Con.sys]

theorem ctlOf_eq (h : s.ctl = .user .event ∨ s.cur = i) : s.ctlOf i = s.ctl := by
  rw [State.ctlOf]
  split
  · rfl
  · rename_i hne
    exact (h.resolve_right hne).symm

theorem ctlOf_of_ne (h : s.ctl = .user .event ∨ s.cur = i) (hne : j ≠ i) : s.ctlOf j = .user .event := by
  rw [State.ctlOf]
  split
  · rename_i hcur
    exact h.resolve_right fun hi => hne (hcur.symm.trans hi)
  · rfl

theorem sock_cases (h : Owned s) (hc : c ∈ s.conns) : s.sock c = some c.client ∨
    s.sock c = none ∧ ∀ ch, c.conn.channel = some ch → ch.fd < 0 := by
  cases hch : c.conn.channel with
  | none => exact .inr ⟨by rw [State.sock, hch]; rfl, nofun⟩
  | some ch =>
    by_cases hfd : 0 ≤ ch.fd
    · refine .inl ?_
      rw [State.sock, hch, Option.bind_some, if_pos hfd, h.opened c hc ch hch hfd]
    · refine .inr ⟨by rw [State.sock, hch, Option.bind_some, if_neg hfd], ?_⟩
      rintro _ ⟨⟩
      exact Int.not_le.mp hfd

/-- What a step of its connection does to a client. -/
def Client.move (p : Client) (bytes : List UInt8) (wire : List Cell) : Client :=
  { p with up := p.up.drop bytes.length, down := p.down ++ wire }

theorem transfer_eq (h : Owned s) (hc : c ∈ s.conns) (hown : own e = true) (hs : TcpConn.Step (s.view c) e t) :
    s.transfer c (taken (s.view c).w e) t.w.wire =
      s.clients.modify c.client fun p => p.move (taken (s.view c).w e) t.w.wire := by
  rcases sock_cases h hc with hsock | ⟨hsock, hclosed⟩
  · rw [State.transfer, hsock]
    rfl
  · obtain ⟨htaken, hwire⟩ := step_closed hs hown hclosed
    have hid : (fun p : Client => p.move [] []) = id := by
      funext p
      simp [Client.move]
    rw [State.transfer, hsock, htaken, show t.w.wire = [] from hwire, hid, List.modify_id]

/-- What is read is what comes next from the client. -/
theorem up_eq (h : Owned s) (hc : c ∈ s.conns) (hown : own e = true) (hs : TcpConn.Step (s.view c) e t)
    (hgiven : taken (s.view c).w e <+: s.incoming c) (hp : s.clients[c.client]? = some p) :
    taken (s.view c).w e ++ p.up.drop (taken (s.view c).w e).length = p.up := by
  rcases sock_cases h hc with hsock | ⟨-, hclosed⟩
  · have hup : s.incoming c = p.up := by rw [State.incoming, hsock, Option.bind_some, hp]
    exact List.prefix_iff_eq_append.mp (hup ▸ hgiven)
  · rw [(step_closed hs hown hclosed).1]
    rfl

/-- All that a client has written is accounted for, with `held` in its connection. -/
structure Client.Conserved (p : Client) (held : List Cell) : Prop where
  flow : p.down ++ held ++ p.up.map some = p.sent.map some
  received : p.received <+: p.down

structure Accounted (s : State) : Prop where
  owned : Owned s
  kept : ∀ i (c : Con), s.conns[i]? = some c → Kept (c.sys (s.ctlOf i))
  served : ∀ i (c : Con) (p : Client), s.conns[i]? = some c → s.clients[c.client]? = some p →
    p.Conserved (flow (c.sys (s.ctlOf i)))
  waiting : ∀ k (p : Client), s.clients[k]? = some p → k ∉ s.conns.map Con.client → p.Conserved [] ∧ p.down = []

theorem Accounted.init : Accounted {} where
  owned := .init
  kept _ _ h := nomatch h
  served _ _ _ h := nomatch h
  waiting _ _ h := nomatch h

/-- The parts of the state that matter here. -/
theorem Accounted.congr (h : Accounted s) (howned : Owned s') (hclients : s'.clients = s.clients)
    (hconns : s'.conns = s.conns) (hctl : ∀ i, s'.ctlOf i = s.ctlOf i) : Accounted s' := by
  constructor
  case owned => exact howned
  case kept =>
    intro i c hc
    rw [hctl]
    exact h.kept i c (hconns ▸ hc)
  case served =>
    intro i c p hc hp
    rw [hctl]
    exact h.served i c p (hconns ▸ hc) (hclients ▸ hp)
  case waiting =>
    rw [hclients, hconns]
    exact h.waiting

/-- A client reads or writes. -/
theorem Accounted.modify {f : Client → Client} (h : Accounted s)
    (hconserved : ∀ p held, p.Conserved held → (f p).Conserved held) (hdown : ∀ p, (f p).down = p.down) :
    Accounted { s with clients := s.clients.modify k f } := by
  have hclient : ∀ {m : Nat} {q : Client}, (s.clients.modify k f)[m]? = some q →
      ∃ p, s.clients[m]? = some p ∧ (q = f p ∨ q = p) := by
    intro m q hq
    rw [List.getElem?_modify] at hq
    obtain ⟨p, hp, rfl⟩ := Option.map_eq_some_iff.mp hq
    refine ⟨p, hp, ?_⟩
    split
    · exact .inl rfl
    · exact .inr rfl
  constructor
  case owned => exact h.owned.congr (List.length_modify ..) rfl rfl rfl rfl
  case kept => exact h.kept
  case served =>
    intro i c q hc hq
    obtain ⟨p, hp, rfl | rfl⟩ := hclient hq
    · exact hconserved p _ (h.served i c p hc hp)
    · exact h.served i c q hc hp
  case waiting =>
    intro m q hq hm
    obtain ⟨p, hp, rfl | rfl⟩ := hclient hq
    · obtain ⟨hconserve, hnil⟩ := h.waiting m p hp hm
      exact ⟨hconserved p _ hconserve, (hdown p).trans hnil⟩
    · exact h.waiting m q hp hm

theorem Accounted.connect (h : Accounted s) :
    Accounted { s with clients := s.clients ++ [{}], backlog := s.backlog ++ [s.clients.length] } := by
  have hold : ∀ {c : Con} {l : List Client}, c ∈ s.conns →
      (s.clients ++ l)[c.client]? = s.clients[c.client]? := fun hc =>
    List.getElem?_append_left (h.owned.known _ (mem_holders_conn hc))
  constructor
  case owned => exact h.owned.connect
  case kept => exact h.kept
  case served =>
    intro i c p hc hp
    exact h.served i c p hc ((hold (List.mem_of_getElem? hc)).symm.trans hp)
  case waiting =>
    intro m p hp hm
    have hp : (s.clients ++ [Client.mk [] [] [] []])[m]? = some p := hp
    rcases Nat.lt_or_ge m s.clients.length with hlt | hge
    · rw [List.getElem?_append_left hlt] at hp
      exact h.waiting m p hp hm
    · rw [List.getElem?_append_right hge] at hp
      obtain rfl := List.mem_singleton.mp (List.mem_of_getElem? hp)
      exact ⟨⟨rfl, List.prefix_rfl⟩, rfl⟩

theorem kept_attached {fd : Int} (hw : World.attach { poller := s.poller, lastId := s.lastId } fd = w) :
    Kept ((Con.attached w k).sys (.user .event)) := by
  subst hw
  have hport : (-1 : Int) ≤ 0 := by decide
  exact ⟨⟨hport, .init, .init, fun _ => ⟨rfl, rfl⟩, fun hne => absurd rfl hne, fun hne => absurd rfl hne⟩, trivial⟩

theorem Accounted.addcon {fd : Int} {tasks : List (Int × Nat)} (h : Accounted s) (hctl : s.ctl = .user .event)
    (htasks : s.tasks = (fd, k) :: tasks)
    (hw : World.attach { poller := s.poller, lastId := s.lastId } fd = w) : Accounted { s with
      tasks
      poller := w.poller
      lastId := w.lastId
      conns := s.conns ++ [.attached w k] } := by
  have hrest : ∀ i, s.ctlOf i = .user .event := fun i => (ctlOf_eq (.inl hctl)).trans hctl
  have hcases : ∀ {i : Nat} {c}, (s.conns ++ [Con.attached w k])[i]? = some c →
      s.conns[i]? = some c ∨ c = Con.attached w k := by
    intro i c hc
    rcases Nat.lt_or_ge i s.conns.length with hlt | hge
    · rw [List.getElem?_append_left hlt] at hc
      exact .inl hc
    · rw [List.getElem?_append_right hge] at hc
      exact .inr (List.mem_singleton.mp (List.mem_of_getElem? hc))
  have hnew : k ∉ s.conns.map Con.client := by
    have hdisj := (List.nodup_append.mp (List.nodup_append.mp h.owned.nodup).2.1).2.2
    exact fun hmem => hdisj k (by rw [htasks]; exact List.mem_cons_self) k hmem rfl
  constructor
  case owned => exact h.owned.addcon htasks hw
  case kept =>
    intro i c hc
    change Kept (c.sys (s.ctlOf i))
    rcases hcases hc with hc | rfl
    · exact h.kept i c hc
    · rw [hrest]
      exact kept_attached hw
  case served =>
    intro i c p hc hp
    change p.Conserved (flow (c.sys (s.ctlOf i)))
    rcases hcases hc with hc | rfl
    · exact h.served i c p hc hp
    · rw [hrest]
      subst hw
      exact (h.waiting k p hp hnew).1
  case waiting =>
    intro m p hp hm
    refine h.waiting m p hp fun hmem => hm ?_
    rw [List.map_append]
    exact List.mem_append_left _ hmem

theorem Accounted.conn {called : Bool} (h : Accounted s) (hc : s.conns[i]? = some c)
    (hturn : s.ctl = .user .event ∨ s.cur = i) (hown : own e = true) (hsends : SendsInput e)
    (hs : TcpConn.Step (s.view c) e t)
    (hgiven : taken (s.view c).w e <+: s.incoming c) : Accounted { s with
      clients := s.transfer c (taken (s.view c).w e) t.w.wire
      socks := s.socksAfter c e
      conns := s.conns.set i { c with conn := t.w.conn }
      poller := t.w.poller
      lastId := t.w.lastId
      cur := i
      ctl := t.ctl
      called } := by
  have hmem : c ∈ s.conns := List.mem_of_getElem? hc
  have hctl := ctlOf_eq hturn
  have halone : Kept (c.sys s.ctl) := hctl ▸ h.kept i c hc
  have hkept : Kept (s.view c) := kept_congr halone rfl
  have hflows := hkept.step hsends hs
  have hother : ∀ {j d}, (s.conns.set i { c with conn := t.w.conn })[j]? = some d →
      j = i ∧ d = { c with conn := t.w.conn } ∨ j ≠ i ∧ s.conns[j]? = some d := by
    intro j d hd
    rw [List.getElem?_set] at hd
    split at hd
    · split at hd
      · exact .inl ⟨Eq.symm ‹_›, (Option.some.inj hd).symm⟩
      · cases hd
    · exact .inr ⟨Ne.symm ‹_›, hd⟩
  have hmoved : t.w.wire ++ flow (Con.sys { c with conn := t.w.conn } t.ctl) =
      flow (c.sys (s.ctlOf i)) ++ (taken (s.view c).w e).map some := by
    rw [hctl]
    exact flow_eq.symm.trans hflows.flow
  have hself : (if i = i then t.ctl else .user .event) = t.ctl := if_pos rfl
  constructor
  case owned => exact h.owned.conn hc hown hs length_transfer
  case kept =>
    intro j d hd
    change Kept (d.sys (if i = j then t.ctl else .user .event))
    rcases hother hd with ⟨rfl, rfl⟩ | ⟨hne, hd⟩
    · rw [hself]
      exact kept_congr hflows.kept rfl
    · rw [if_neg hne.symm, ← ctlOf_of_ne hturn hne]
      exact h.kept j d hd
  case served =>
    intro j d q hd hq
    change q.Conserved (flow (d.sys (if i = j then t.ctl else .user .event)))
    rw [transfer_eq h.owned hmem hown hs, List.getElem?_modify] at hq
    obtain ⟨p, hp, rfl⟩ := Option.map_eq_some_iff.mp hq
    rcases hother hd with ⟨rfl, rfl⟩ | ⟨hne, hd⟩
    · have hp : s.clients[c.client]? = some p := hp
      have hup := up_eq h.owned hmem hown hs hgiven hp
      obtain ⟨hflow, hreceived⟩ := h.served j c p hc hp
      rw [hself, if_pos rfl]
      refine ⟨?_, hreceived.trans (List.prefix_append _ _)⟩
      have hmap : p.up.map some = (taken (s.view c).w e).map some ++
          (p.up.drop (taken (s.view c).w e).length).map some := by rw [← List.map_append, hup]
      rw [hmap] at hflow
      rw [Client.move, List.append_assoc p.down, hmoved, ← hflow]
      simp only [List.append_assoc]
    · have hclient : ¬c.client = d.client := fun heq => hne (h.owned.eq_of_client hc hd heq.symm)
      rw [if_neg hne.symm, ← ctlOf_of_ne hturn hne, if_neg hclient]
      exact h.served j d p hd hp
  case waiting =>
    intro m q hq hm
    rw [transfer_eq h.owned hmem hown hs, List.getElem?_modify] at hq
    obtain ⟨p, hp, rfl⟩ := Option.map_eq_some_iff.mp hq
    rw [map_client_set hc] at hm
    have hclient : ¬c.client = m := by
      rintro rfl
      exact hm (List.mem_map_of_mem hmem)
    rw [if_neg hclient]
    exact h.waiting m p hp hm

theorem Accounted.step (h : Accounted s) (hs : Step s ev s') : Accounted s' := by
  have howned := h.owned.step hs
  cases hs with
  | connect => exact h.connect
  | write =>
    refine h.modify (fun p held hp => ⟨?_, hp.received⟩) fun _ => rfl
    simp only [List.map_append, ← List.append_assoc, hp.flow]
  | read => exact h.modify (fun p held hp => ⟨hp.flow, List.take_prefix _ _⟩) fun _ => rfl
  | addcon hctl htasks hw => exact h.addcon hctl htasks hw
  | accept | wait | skip | skipUnknown | openOther | closeOther => exact h.congr howned rfl rfl fun _ => rfl
  | conn hc hturn hown hcall hs hgiven => exact h.conn hc hturn hown hcall.sendsInput hs hgiven

theorem run_accounted (h : Run Step {} es s) : Accounted s := h.invariant .init Accounted.step

/-! ## Sockets that take what is written -/

/-- Each call of `writeImp` writes something or is interrupted. -/
def Accepts : Event → Prop
  | .conn _ e => Echo.Accepts (.server e)
  | _ => True

/-- The callback of a connection is running and has called `send`. -/
def State.calledOf (s : State) (i : Nat) : Bool := if s.cur = i then s.called else false

/-- A connection alone, with its callback. -/
def Con.alone (c : Con) (ctl : Ctl) (called : Bool) : Echo.State := { server := c.sys ctl, called }

structure Attended (s : State) : Prop where
  rest : s.ctl = .user .event → s.called = false
  served : ∀ i (c : Con), s.conns[i]? = some c → Served (c.alone (s.ctlOf i) (s.calledOf i))

theorem served_congr {a b : Echo.State} (h : Served a) (hconn : b.server.w.conn = a.server.w.conn)
    (hctl : b.server.ctl = a.server.ctl) (hcalled : b.called = a.called) : Served b := by
  constructor
  case idle =>
    rw [Idle, hconn]
    exact h.idle
  case output => rw [hconn, h.output]
  case readcb =>
    rw [HasCallback, hconn]
    exact h.readcb
  case answered =>
    have hanswered : Answered a.called a.server.w a.server.ctl := h.answered
    rw [hctl, hcalled]
    cases hcase : a.server.ctl with
    | user caller =>
      rw [hcase] at hanswered
      cases caller with
      | event | readcb =>
        simp only [Answered, hconn]
        exact hanswered
    | reading | sending =>
      rw [hcase] at hanswered
      exact hanswered

theorem calledOf_eq (h : Attended s) (hturn : s.ctl = .user .event ∨ s.cur = i) : s.calledOf i = s.called := by
  rw [State.calledOf]
  split
  · rfl
  · rename_i hne
    exact (h.rest (hturn.resolve_right hne)).symm

theorem calledOf_of_ne (h : Attended s) (hturn : s.ctl = .user .event ∨ s.cur = i) (hne : j ≠ i) :
    s.calledOf j = false := by
  rw [State.calledOf]
  split
  · rename_i hcur
    exact h.rest (hturn.resolve_right fun hi => hne (hcur.symm.trans hi))
  · rfl

theorem Attended.init : Attended {} where
  rest _ := rfl
  served _ _ h := nomatch h

theorem served_attached {fd : Int} (hw : World.attach { poller := s.poller, lastId := s.lastId } fd = w) :
    Served ((Con.attached w k).alone (.user .event) false) := by
  subst hw
  exact ⟨nofun, rfl, fun _ => rfl, rfl, rfl⟩

theorem Attended.conn {clients : List Client} {socks : Int → Option Nat} (h : Attended s)
    (hkept : Kept (s.view c)) (hc : s.conns[i]? = some c) (hturn : s.ctl = .user .event ∨ s.cur = i)
    (hok : Echo.Accepts (.server e)) (hcall : Callback s.called s.ctl e called)
    (hs : TcpConn.Step (s.view c) e t) : Attended { s with
      clients
      socks
      conns := s.conns.set i { c with conn := t.w.conn }
      poller := t.w.poller
      lastId := t.w.lastId
      cur := i
      ctl := t.ctl
      called } := by
  have hserved : Served { server := s.view c, called := s.called } :=
    served_congr (h.served i c hc) rfl (ctlOf_eq hturn).symm (calledOf_eq h hturn).symm
  have hserved' : Served { server := t, called, up := [] } := hserved.server hkept hok hcall hs
  constructor
  case rest =>
    intro hrest
    have hanswered : Answered called t.w t.ctl := hserved'.answered
    rw [show t.ctl = .user .event from hrest] at hanswered
    exact hanswered.1
  case served =>
    intro j d hd
    change Served (d.alone (if i = j then t.ctl else .user .event) (if i = j then called else false))
    have hd : (s.conns.set i { c with conn := t.w.conn })[j]? = some d := hd
    rw [List.getElem?_set] at hd
    split at hd
    · rename_i hij
      split at hd
      · obtain rfl := Option.some.inj hd
        rw [if_pos hij, if_pos hij]
        exact served_congr hserved' rfl rfl rfl
      · cases hd
    · rename_i hij
      have hold := h.served j d hd
      rw [ctlOf_of_ne hturn (Ne.symm hij), calledOf_of_ne h hturn (Ne.symm hij)] at hold
      rw [if_neg hij, if_neg hij]
      exact hold

theorem Attended.step (h : Attended s) (haccounted : Accounted s) (hok : Accepts ev) (hs : Step s ev s') :
    Attended s' := by
  cases hs with
  | connect | write | read | accept | wait | skip | skipUnknown | openOther | closeOther =>
    exact ⟨h.rest, h.served⟩
  | @addcon fd k tasks w hctl htasks hw =>
    refine ⟨h.rest, fun i c hc => ?_⟩
    have hrest : s.ctlOf i = .user .event ∧ s.calledOf i = false :=
      ⟨(ctlOf_eq (.inl hctl)).trans hctl, (calledOf_eq h (.inl hctl)).trans (h.rest hctl)⟩
    change Served (c.alone (s.ctlOf i) (s.calledOf i))
    have hc : (s.conns ++ [Con.attached w k])[i]? = some c := hc
    rcases Nat.lt_or_ge i s.conns.length with hlt | hge
    · rw [List.getElem?_append_left hlt] at hc
      exact h.served i c hc
    · rw [List.getElem?_append_right hge] at hc
      obtain rfl := List.mem_singleton.mp (List.mem_of_getElem? hc)
      rw [hrest.1, hrest.2]
      exact served_attached hw
  | conn hc hturn _ hcall hs =>
    have halone : Kept _ := haccounted.kept _ _ hc
    rw [ctlOf_eq hturn] at halone
    exact h.conn (kept_congr halone rfl) hc hturn hok hcall hs

theorem run_attended (h : Run (guarded (fun _ ev => Accepts ev) Step) {} es s) : Accounted s ∧ Attended s := by
  refine h.invariant (I := fun s => Accounted s ∧ Attended s) ⟨.init, .init⟩ ?_
  rintro s ev t ⟨haccounted, hattended⟩ ⟨hok, hs⟩
  exact ⟨haccounted.step hs, hattended.step haccounted hok hs⟩

/-! ## A run -/

/-- Two clients write and are accepted, and what the second has written is read first. -/
theorem callback_run : ∃ s c, Run (guarded (fun _ ev => Accepts ev) Step) {} [.connect, .connect, .write 0 [97],
      .write 1 [98], .accept 5 true, .accept 6 true, .addcon 5, .addcon 6, .wait [⟨some 2, 0x5⟩],
      .conn 1 (.handleRead ⟨1, 0x4⟩), .conn 1 (.read (.data [98])), .conn 1 (.read (.error .EAGAIN))] s ∧
    s.conns[1]? = some c ∧ s.cur = 1 ∧ s.ctl = .user (.readcb .ret) ∧ s.called = false ∧ s.socks 6 = some 1 ∧
    s.clients = [⟨[97], [97], [], []⟩, ⟨[98], [], [], []⟩] ∧ c.conn.channel = some ⟨2, 6, 0x1⟩ ∧
    c.conn.input.content = [some 98] := by
  refine ⟨?s, ?c, ?run, ?conn, ?facts⟩
  case run =>
    refine .cons ⟨trivial, .connect⟩ ?_
    refine .cons ⟨trivial, .connect⟩ ?_
    refine .cons ⟨trivial, .write⟩ ?_
    refine .cons ⟨trivial, .write⟩ ?_
    refine .cons ⟨trivial, .accept rfl rfl ⟨by decide, rfl, by decide⟩⟩ ?_
    refine .cons ⟨trivial, .accept rfl rfl ⟨by decide, rfl, by decide⟩⟩ ?_
    refine .cons ⟨trivial, .addcon rfl rfl rfl⟩ ?_
    refine .cons ⟨trivial, .addcon rfl rfl rfl⟩ ?_
    refine .cons ⟨trivial, .wait rfl (by decide) ?ready⟩ ?_
    case ready => exact ⟨by decide, by decide⟩
    refine .cons ⟨trivial, .conn rfl (.inl rfl) rfl .handleRead (.handleRead rfl rfl rfl rfl rfl) ?_⟩ ?_
    · exact List.nil_prefix
    refine .cons ⟨trivial, .conn rfl (.inr rfl) rfl .readImp (.read rfl ?len rfl) (by decide)⟩ ?_
    case len =>
      rintro bytes ⟨⟩
      decide
    refine .cons ⟨trivial, .conn rfl (.inr rfl) rfl .readImp (.read rfl nofun rfl) List.nil_prefix⟩ ?_
    exact .nil
  case conn => rfl
  case facts => decide

/-- It is sent back and read. -/
theorem echo_run : ∃ es s, Run (guarded (fun _ ev => Accepts ev) Step) {} es s ∧ s.ctl = .user .event ∧
    s.clients = [⟨[97], [97], [], []⟩, ⟨[98], [], [some 98], [some 98]⟩] := by
  obtain ⟨⟨clients, backlog, socks, tasks, conns, poller, lastId, cur, ctl, called⟩, ⟨conn, client⟩, hrun, hc, rfl,
    rfl, rfl, hsocks, rfl, hch, hcontent⟩ := callback_run
  have hch : conn.channel = some ⟨2, 6, 0x1⟩ := hch
  have hcontent : conn.input.content = [some 98] := hcontent
  have hc : conns[1]? = some ⟨conn, client⟩ := hc
  have hsocks : socks 6 = some 1 := hsocks
  have hwf : conn.input.WF := ((run_attended hrun).1.kept 1 _ hc).stored.input
  have hsize : conn.input.size = 1 := by rw [← length_content hwf, hcontent]; rfl
  have hlen : 1 < conns.length := (List.getElem?_eq_some_iff.mp hc).1
  have hsend := step_send (w := { conn, poller, lastId }) (c := .readcb .ret) hwf hch (by decide)
    (by rw [hsize]; decide)
  refine ⟨_ ++ [.conn 1 (.send ⟨conn.input, hwf⟩ true), .conn 1 (.write (.ret 1)), .conn 1 .readcbEnd,
    .read 1 1], ?s, hrun.append ?run, ?facts⟩
  case run =>
    refine .cons ⟨trivial, .conn hc (.inr rfl) rfl .send hsend List.nil_prefix⟩ ?_
    refine .cons ⟨.inl ⟨1, rfl, Nat.one_pos⟩, .conn (List.getElem?_set_self hlen) (.inr rfl) rfl .writeImp
      (.writeDone hch rfl (.inr hsize.symm) fun hlt => absurd hlt (by decide)) List.nil_prefix⟩ ?_
    refine .cons ⟨trivial, .conn (List.getElem?_set_self (by simpa using hlen)) (.inr rfl) rfl .ret .readcbRet
      List.nil_prefix⟩ ?_
    refine .cons ⟨trivial, .read ?read⟩ ?_
    case read =>
      simp [State.transfer, State.sock, State.socksAfter, State.view, World.setMsg, hch, hsocks, hcontent]
    exact .nil
  case facts =>
    simp [State.transfer, State.sock, State.socksAfter, State.view, World.setMsg, hch, hsocks, hcontent]

/-! ## The echo -/

theorem sent_eq (h : p.Conserved []) (hdown : p.down = []) : p.up = p.sent := by
  have hflow := h.flow
  rw [hdown, List.nil_append, List.nil_append] at hflow
  exact List.map_injective_iff.mpr (Option.some_injective _) hflow

/-- **Each client gets its own bytes.** In every run of the server with all its clients, however descriptors
are closed and given out again, no two connections have the same client, what a client reads is the first part
of what it has written itself, what its connection holds is what is missing between the bytes that came back
and those that are still on their way, and a client without a connection has got nothing. -/
theorem clients_conserved (h : Run Step {} es s) :
    (s.conns.map Con.client).Nodup ∧ ∀ k (p : Client), s.clients[k]? = some p → p.received <+: p.sent.map some ∧
      (∀ i (c : Con), s.conns[i]? = some c → c.client = k → p.down ++ c.conn.output.content ++
        unsent (c.sys (s.ctlOf i)) ++ p.up.map some = p.sent.map some) ∧
      (k ∉ s.conns.map Con.client → p.down = [] ∧ p.up = p.sent) := by
  have haccounted := run_accounted h
  have hnodup := (List.nodup_append.mp (List.nodup_append.mp haccounted.owned.nodup).2.1).2.1
  refine ⟨hnodup, fun k p hp => ⟨?_, ?_, ?_⟩⟩
  · have hconserved : ∃ held, p.Conserved held := by
      by_cases hk : k ∈ s.conns.map Con.client
      · obtain ⟨c, hc, rfl⟩ := List.mem_map.mp hk
        obtain ⟨i, hi⟩ := List.mem_iff_getElem?.mp hc
        exact ⟨_, haccounted.served i c p hi hp⟩
      · exact ⟨_, (haccounted.waiting k p hp hk).1⟩
    obtain ⟨held, hflow, hreceived⟩ := hconserved
    refine hreceived.trans ?_
    rw [← hflow, List.append_assoc]
    exact List.prefix_append _ _
  · rintro i c hc rfl
    have hflow := (haccounted.served i c p hc hp).flow
    have hheld : flow (c.sys (s.ctlOf i)) = c.conn.output.content ++ unsent (c.sys (s.ctlOf i)) := rfl
    rwa [hheld, ← List.append_assoc] at hflow
  · intro hk
    obtain ⟨hconserved, hdown⟩ := haccounted.waiting k p hp hk
    exact ⟨hdown, sent_eq hconserved hdown⟩

theorem clients_conserved_two : ∃ es s p, Run Step {} es s ∧ s.clients[1]? = some p ∧ p.received = [some 98] ∧
    p.received <+: p.sent.map some := by
  obtain ⟨es, s, hrun, -, hclients⟩ := echo_run
  have hp : s.clients[1]? = some ⟨[98], [], [some 98], [some 98]⟩ := by rw [hclients]; rfl
  have hrun : Run Step {} es s := hrun.mono fun hs => hs.2
  exact ⟨es, s, _, hrun, hp, rfl, ((clients_conserved hrun).2 1 _ hp).1⟩

/-- **Each client gets all of them.** As long as the sockets take something of what is written, whenever no
handler is running all that was read from any client has been written to it. -/
theorem clients_served (h : Run (guarded (fun _ ev => Accepts ev) Step) {} es s) (hrest : s.ctl = .user .event)
    (hp : s.clients[k]? = some p) : p.down ++ p.up.map some = p.sent.map some := by
  obtain ⟨haccounted, hattended⟩ := run_attended h
  by_cases hk : k ∈ s.conns.map Con.client
  · obtain ⟨c, hc, rfl⟩ := List.mem_map.mp hk
    obtain ⟨i, hi⟩ := List.mem_iff_getElem?.mp hc
    have hflow := (haccounted.served i c p hi hp).flow
    have hserved := hattended.served i c hi
    rw [(ctlOf_eq (.inl hrest)).trans hrest] at hflow hserved
    have hinput : c.conn.input.content = [] := hserved.answered.2
    have houtput : c.conn.output.content = [] := hserved.output
    have hheld : flow (c.sys (.user .event)) = [] := by
      rw [flow, unsent, Con.sys, hinput, houtput]
      rfl
    rwa [hheld, List.append_nil] at hflow
  · have hflow := (haccounted.waiting k p hp hk).1.flow
    rwa [List.append_nil] at hflow

theorem clients_served_two : ∃ es s p, Run (guarded (fun _ ev => Accepts ev) Step) {} es s ∧
    s.clients[1]? = some p ∧ p.sent = [98] ∧ p.down ++ p.up.map some = p.sent.map some := by
  obtain ⟨es, s, hrun, hrest, hclients⟩ := echo_run
  have hp : s.clients[1]? = some ⟨[98], [], [some 98], [some 98]⟩ := by rw [hclients]; rfl
  exact ⟨es, s, _, hrun, hp, rfl, clients_served hrun hrest hp⟩

end NetLibrary.EchoServer
