import NetLibrary.Theory.Links
import NetLibrary.Theory.Run
import NetLibrary.Verify.Daemon.Start
import NetLibrary.Verify.Util

/-!
# One daemon for a pid file

Nothing but the pid file keeps a second daemon from starting: the lock on it only leads to a message. So
there is one daemon as long as no process finds the file without a pid while another one, that has found it so, has
not yet written its own (`one_daemon`).
-/

namespace NetLibrary.Daemon
open LTS Threads Files

/-! ## What is read back -/

section
variable {pid : Pid} {beyond rest : Bytes}

theorem atoi_digits : atoi (Decimal.digits pid) = pid := by
  have hpid := pid.property
  have hread : Decimal.strtol isspace (Decimal.digits pid ++ []) = pid :=
    Decimal.strtol_digits (fun _ => Util.isspace_of_isdigit) (by rw [Decimal.LONG_MAX]; omega) nofun
  rw [List.append_nil] at hread
  rw [atoi, hread, Int.bmod_eq_of_le (by omega) (by omega)]

theorem length_line_le : (line pid).length ≤ 32 := by
  have hten : (Nat.toDigits 10 pid).length ≤ 10 :=
    (Nat.length_toDigits_le_iff (by decide) (by decide)).mpr (by have := pid.property; omega)
  rw [line, Decimal.digits, List.length_append, List.length_map, List.length_singleton]
  omega

/-- What `WritePidtoFile` writes is what `getPidFromFile` reads. -/
theorem pidOf_line : pidOf beyond (line pid ++ rest) = pid := by
  have hres : (line pid ++ rest).take 32 = line pid ++ rest.take (32 - (line pid).length) := by
    rw [List.take_append, List.take_of_length_le length_line_le]
  have hne : line pid ++ rest.take (32 - (line pid).length) ≠ [] := by simp [line]
  have hdigit : ∀ c ∈ Decimal.digits pid, (decide (c ≠ 0 ∧ c ≠ '\n'.toUInt8)) = true := by
    intro c hc
    have hd : Decimal.isdigit c = true := Decimal.isdigit_of_mem_digits c hc
    refine decide_eq_true ⟨?_, ?_⟩
    · rintro rfl
      exact absurd hd (by decide)
    · rintro rfl
      exact absurd hd (by decide)
  rw [pidOf, hres]
  simp only [if_neg hne]
  rw [line, List.append_assoc, List.append_assoc, List.append_assoc, List.takeWhile_append_of_pos hdigit]
  have hstop : ∀ t : Bytes, (['\n'.toUInt8] ++ t).takeWhile (fun c => c ≠ 0 ∧ c ≠ '\n'.toUInt8) = [] :=
    fun t => List.takeWhile_cons_of_neg (by decide)
  rw [hstop, List.append_nil, atoi_digits]

end

/-! ## The processes -/

/-- A process that has found no pid, and has not written its own. -/
def Pc.starting : Pc → Bool
  | .fork | .openPid _ | .lock _ _ | .write _ _ => true
  | _ => false

/-- A process that has written its pid and is, or may become, a daemon. -/
def Pc.started : Pc → Bool
  | .close _ _ written => written
  | .openNull _ | .daemon _ => true
  | _ => false

/-- The file in which a process is going to write its pid. -/
def Pc.target : Pc → Option Nat
  | .lock _ fd => some fd
  | .write _ fd => fd
  | _ => none

def Pc.active (a : Pc) : Bool := a.starting || a.started

variable {ν : Type} {pidfile : ν} {s s' : Sys ν} {e : Event} {es : List Event}
variable {i j : Nat} {a b : Pc} {files : Files ν UInt8} {n : Nat}

def Pc.isDaemon : Pc → Bool
  | .daemon _ => true
  | _ => false

/-- The daemons that have not ended. -/
def daemons (s : Sys ν) : Nat := s.pcs.countP Pc.isDaemon

/-- No process finds the file without a pid while another one is starting, or fails to read the file while another
one is starting or has started. -/
def Alone (pidfile : ν) (s : Sys ν) : Event → Prop
  | .read _ beyond => pidIn s.files pidfile beyond ≤ 0 → ∀ a ∈ s.pcs, a.starting = false
  | .unread _ => ∀ a ∈ s.pcs, a.active = false
  | _ => True

structure Inv (pidfile : ν) (s : Sys ν) : Prop where
  unique : ∀ {i j a b}, At s.pcs i a → At s.pcs j b → a.active = true → b.active = true → i = j
  named : ∀ {i a}, At s.pcs i a → a.started = true → ∀ beyond, 0 < pidIn s.files pidfile beyond
  target : ∀ {i a fd}, At s.pcs i a → a.target = some fd → s.files.find pidfile = some fd

theorem Inv.init : Inv pidfile (.init files n) := by
  have hidle : ∀ {i a}, At (List.replicate n Pc.idle) i a → a = .idle :=
    fun hat => List.eq_of_mem_replicate hat.mem
  refine ⟨fun hi _ ha => ?_, fun hi ha => ?_, fun hi ha => ?_⟩ <;>
  · cases hidle hi
    cases ha

theorem active_of_target {fd : Nat} (h : a.target = some fd) : a.active = true := by
  cases a with
  | lock | write => rfl
  | idle | probe | fork | openPid | close | openNull | daemon | ended => cases h

theorem active_of_daemon (h : a.isDaemon = true) : a.active = true := by
  cases a with
  | daemon => rfl
  | idle | probe | fork | openPid | lock | write | close | openNull | ended => cases h

theorem active_of_started (h : a.started = true) : a.active = true := by
  rw [Pc.active, h, Bool.or_true]

/-- A process that goes on without touching the file. -/
theorem Inv.move (h : Inv pidfile s) (hat : At s.pcs i a) (hpcs : s'.pcs = s.pcs.set i b)
    (hfiles : s'.files = s.files) (hactive : b.active = true → a.active = true)
    (hstarted : b.started = true → a.started = true) (htarget : ∀ fd ∈ b.target, a.target = some fd) :
    Inv pidfile s' := by
  have hold : ∀ {j c}, At s'.pcs j c → ∃ c', At s.pcs j c' ∧ (c.active = true → c'.active = true) ∧
      (c.started = true → c'.started = true) ∧ ∀ fd ∈ c.target, c'.target = some fd := by
    intro j c hj
    rw [hpcs] at hj
    rcases hj.of_set with ⟨rfl, rfl⟩ | ⟨-, hj⟩
    · exact ⟨a, hat, hactive, hstarted, htarget⟩
    · exact ⟨c, hj, id, id, fun _ hfd => hfd⟩
  refine ⟨fun hj hk hc hd => ?_, fun hj hc => ?_, fun hj hc => ?_⟩
  · obtain ⟨c', hj, hc', -⟩ := hold hj
    obtain ⟨d', hk, hd', -⟩ := hold hk
    exact h.unique hj hk (hc' hc) (hd' hd)
  · obtain ⟨c', hj, -, hc', -⟩ := hold hj
    rw [hfiles]
    exact h.named hj (hc' hc)
  · obtain ⟨c', hj, -, -, hc'⟩ := hold hj
    rw [hfiles]
    exact h.target hj (hc' _ hc)

/-- A process may change the file if no other one is active. -/
theorem Inv.of_others (hpcs : s'.pcs = s.pcs.set i b)
    (hothers : ∀ j ≠ i, ∀ c, At s.pcs j c → c.active = false)
    (hstarted : b.started = true → ∀ beyond, 0 < pidIn s'.files pidfile beyond)
    (htarget : ∀ fd ∈ b.target, s'.files.find pidfile = some fd) : Inv pidfile s' := by
  have hself : ∀ {j c}, At s'.pcs j c → c.active = true → j = i ∧ c = b := by
    intro j c hj hc
    rw [hpcs] at hj
    rcases hj.of_set with hself | ⟨hne, hj⟩
    · exact hself
    · rw [hothers j hne c hj] at hc
      cases hc
  refine ⟨fun hj hk hc hd => ?_, fun hj hc => ?_, fun hj hc => ?_⟩
  · exact (hself hj hc).1.trans (hself hk hd).1.symm
  · obtain ⟨-, rfl⟩ := hself hj (active_of_started hc)
    exact hstarted hc
  · obtain ⟨-, rfl⟩ := hself hj (active_of_target hc)
    exact htarget _ hc

theorem Inv.others (h : Inv pidfile s) (hat : At s.pcs i a) (ha : a.active = true) :
    ∀ j ≠ i, ∀ c, At s.pcs j c → c.active = false := by
  intro j hne c hj
  by_contra hc
  exact hne (h.unique hj hat (Bool.not_eq_false _ ▸ hc) ha)

/-- Without a pid in the file no process has started, and if none is starting none is active. -/
theorem Inv.not_active (h : Inv pidfile s) {beyond : Bytes} (hfree : pidIn s.files pidfile beyond ≤ 0)
    (hstarting : ∀ a ∈ s.pcs, a.starting = false) : ∀ j ≠ i, ∀ c, At s.pcs j c → c.active = false := by
  intro j _ c hj
  have hstarted : c.started = false := by
    by_contra hc
    exact absurd (h.named hj (Bool.not_eq_false _ ▸ hc) beyond) (Int.not_lt.mpr hfree)
  rw [Pc.active, hstarting c hj.mem, hstarted]
  rfl

/-- The pid that a process has written is in the file, whatever was there before. -/
theorem pidIn_setData {fd : Nat} {pid : Pid} {rest beyond : Bytes} (h : files.find pidfile = some fd) :
    pidIn (files.setData fd (line pid ++ rest)) pidfile beyond = pid := by
  have hcontent : (files.setData fd (line pid ++ rest)).content pidfile = some (line pid ++ rest) := by
    rw [content, show (files.setData fd _).find pidfile = some fd from h]
    exact congrArg some (Function.update_self ..)
  rw [pidIn, hcontent]
  exact pidOf_line

variable [DecidableEq ν]

/-- `Step` reads the pid file as `daemonStart` does: both go on to the `fork`, or both do not. -/
theorem daemonStart_fork_iff_step {os : Os} {p : Process} {errno : Int} (hppid : os.ppid ≠ 1)
    (hfile : os.pidfile p.kills = (s.files.content pidfile).elim (.error errno) .ok)
    (hat : At s.pcs i .idle) : (daemonStart os p).1 = .fork ↔
      Step pidfile s (.read i os.beyond) { s with pcs := s.pcs.set i .fork } := by
  have hsame : recorded os p = pidIn s.files pidfile os.beyond := by
    unfold recorded getPidFromFile pidIn
    rw [hfile]
    cases s.files.content pidfile <;> rfl
  rw [daemonStart_fork_iff hppid, hsame]
  constructor
  · exact fun hfree => .free hat hfree
  · intro hs
    have hfork : At (s.pcs.set i .fork) i .fork :=
      List.getElem?_set_self (List.getElem?_eq_some_iff.mp hat).1
    generalize ht : ({ s with pcs := s.pcs.set i .fork } : Sys ν) = t at hs
    cases hs with
    | found =>
      have hpcs := congrArg Sys.pcs ht
      rw [show List.set _ _ _ = _ from hpcs] at hfork
      obtain ⟨-, heq⟩ | ⟨hne, -⟩ := hfork.of_set
      · cases heq
      · exact absurd rfl hne
    | free _ hfree => exact hfree

theorem Inv.step (h : Inv pidfile s) (hok : Alone pidfile s e) (hs : Step pidfile s e s') :
    Inv pidfile s' := by
  cases hs with
  | found hat => exact h.move hat rfl rfl nofun nofun nofun
  | free hat hfree => exact .of_others rfl (h.not_active hfree (hok hfree)) nofun nofun
  | unread hat => exact .of_others rfl (fun _ _ c hj => hok c hj.mem) nofun nofun
  | probe hat | orphan hat | forkFails hat | killed hat => exact h.move hat rfl rfl nofun nofun nofun
  | fork hat => exact h.move hat rfl rfl (fun _ => rfl) nofun nofun
  | openPid hat hopen =>
    refine .of_others rfl (h.others hat rfl) nofun fun _ hfd => ?_
    cases hfd
    exact (find_openFile hopen).mpr (.of_openFile hopen)
  | openFails hat => exact h.move hat rfl rfl (fun _ => rfl) nofun nofun
  | lock hat | lockFails hat => exact h.move hat rfl rfl (fun _ => rfl) nofun fun _ hfd => hfd
  | writeFails hat => exact h.move hat rfl rfl nofun nofun nofun
  | @write _ _ _ i pid fd ret hat hret =>
    refine .of_others rfl (h.others hat rfl) (fun hwritten beyond => ?_) nofun
    have hall : (line pid).take ret = line pid := by
      rw [of_decide_eq_true hwritten, List.take_length]
    rw [hall, pidIn_setData (h.target hat rfl)]
    exact Int.natCast_pos.mpr pid.property.1
  | @close _ _ _ _ _ _ written hat =>
    cases written with
    | false => exact h.move hat rfl rfl nofun nofun nofun
    | true => exact h.move hat rfl rfl (fun _ => rfl) (fun _ => rfl) nofun
  | @openNull _ _ _ _ _ ok hat =>
    cases ok with
    | false => exact h.move hat rfl rfl nofun nofun nofun
    | true => exact h.move hat rfl rfl (fun _ => rfl) (fun _ => rfl) nofun
  | exit hat => exact .of_others rfl (h.others hat rfl) nofun nofun

/-- **At most one daemon**, in every run of any number of processes on any pid file whose steps are all
`Alone`. -/
theorem one_daemon (h : Run (guarded (Alone pidfile) (Step pidfile)) (.init files n) es s) :
    daemons s ≤ 1 := by
  have hinv : Inv pidfile s := h.invariant .init fun h hs => h.step hs.1 hs.2
  refine countP_le_one fun hi hj ha hb => hinv.unique hi hj ?_ ?_
  · exact active_of_daemon ha
  · exact active_of_daemon hb

/-- One process becomes a daemon, and another one is turned away. -/
def refused : List Event :=
  [.read 0 [], .fork 0 (some ⟨10, by decide⟩), .openPid 0 true, .lock 0 true, .write 0 3, .close 0,
    .openNull 0 true, .read 1 [], .probe 1]

theorem one_daemon_refused : ∃ s,
    Run (guarded (Alone ()) (Step ())) (.init (Files.empty Unit UInt8) 2) refused s ∧ daemons s ≤ 1 := by
  suffices hrun : ∃ s, Run (guarded (Alone ()) (Step ())) (.init (Files.empty Unit UInt8) 2) refused s from
    hrun.imp fun s h => ⟨h, one_daemon h⟩
  refine ⟨_, .cons ⟨fun _ => by decide, .free rfl (by decide)⟩ <| .cons ⟨trivial, .fork rfl (by decide)⟩ <|
    .cons ⟨trivial, .openPid rfl rfl⟩ <| .cons ⟨trivial, .lock rfl (by simp)⟩ <|
      .cons ⟨trivial, .write rfl (by decide)⟩ <| .cons ⟨trivial, .close rfl⟩ <|
        .cons ⟨trivial, .openNull rfl⟩ <| .cons ⟨fun _ => by decide, .found rfl (by decide)⟩ <|
          .single ⟨trivial, .probe rfl⟩⟩

/-- Two processes that both find no pid file. The second does not get the lock, and writes all the same. -/
def overlap : List Event :=
  [.read 0 [], .read 1 [], .fork 0 (some ⟨10, by decide⟩), .fork 1 (some ⟨11, by decide⟩), .openPid 0 true,
    .openPid 1 true, .lock 0 true, .lock 1 false, .write 0 3, .write 1 3, .close 0, .close 1, .openNull 0 true,
    .openNull 1 true]

theorem two_daemons : ∃ s, Run (Step ()) (.init (Files.empty Unit UInt8) 2) overlap s ∧ daemons s = 2 := by
  refine ⟨_, .cons (.free rfl (by decide)) <| .cons (.free rfl (by decide)) <|
    .cons (.fork rfl (by decide)) <| .cons (.fork rfl (by decide)) <| .cons (.openPid rfl rfl) <|
      .cons (.openPid rfl rfl) <| .cons (.lock rfl (by simp)) <|
        .cons (.lockFails rfl ⟨0, List.mem_singleton.mpr rfl⟩) <| .cons (.write rfl (by decide)) <|
          .cons (.write rfl (by decide)) <| .cons (.close rfl) <| .cons (.close rfl) <|
            .cons (.openNull rfl) <| .single (.openNull rfl), ?_⟩
  decide

end NetLibrary.Daemon
