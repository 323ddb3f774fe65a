import NetLibrary.Theory.Decimal
import NetLibrary.Theory.Files
import NetLibrary.Theory.Threads
import NetLibrary.Model.Conf

/-!
# Daemons and their pid files

`Daemon` and `WritePidtoFile` of `daemon.h`. `daemonStart`, `daemonStop` and `daemonRestart` are what one
process does up to the `fork`, where `Os` has all that its system calls return. `Step` is `daemonStart` call
by call, in any number of processes with the same pid file.
-/

namespace NetLibrary.Daemon
open Threads

def atoi (s : Bytes) : Int := (Decimal.strtol isspace s).bmod 0x100000000

/-- The number in `buf`, after a `read` from a file with this content. `beyond` is what lies in memory between the
end of `buf` and the next NUL. -/
def pidOf (beyond content : Bytes) : Int :=
  let res := content.take 32
  if res = [] then -1
  else
    let buf := res ++ .replicate (32 - res.length) 0 ++ beyond
    atoi (buf.takeWhile fun c => c ≠ 0 ∧ c ≠ '\n'.toUInt8)

/-! ## One process -/

inductive KillResult
  | ok
  | eperm
  | esrch
  deriving DecidableEq, Repr

structure Os where
  ppid : Int
  /-- The content of the pid file after so many calls of `kill`, or the error of `open` or `read`. -/
  pidfile : Nat → Except Int Bytes
  /-- What each call of `kill` returns for a process. -/
  kill : Nat → Int → KillResult
  beyond : Bytes

structure Process where
  /-- The number of calls of `kill` so far. -/
  kills : Nat := 0
  errno : Int
  stderr : List String := []
  deriving DecidableEq, Repr

def EPERM : Int := 1

def ESRCH : Int := 3

variable (os : Os)

def Process.fprintf (p : Process) (msg : String) : Process := { p with stderr := p.stderr ++ [msg] }

/-- `kill`, whether to send a signal or not. -/
def kill (p : Process) (pid : Int) : Int × Process :=
  match os.kill p.kills pid with
  | .ok => (0, { p with kills := p.kills + 1 })
  | .eperm => (-1, { p with kills := p.kills + 1, errno := EPERM })
  | .esrch => (-1, { p with kills := p.kills + 1, errno := ESRCH })

def getPidFromFile (p : Process) : Int × Process :=
  match os.pidfile p.kills with
  | .error errno => (-1, { p with errno })
  | .ok content => (pidOf os.beyond content, p)

/-- How far a call gets. -/
inductive Outcome
  | fork
  | ret (r : Int)
  deriving DecidableEq, Repr

def daemonStart (p : Process) : Outcome × Process :=
  let (pid, p) := getPidFromFile os p
  if 0 < pid then
    -- `return -1` is not under the inner `if`, which has no braces
    if p.errno = EPERM then (.ret (-1), p.fprintf "daemon exists,use restart\n")
    else
      let (r, p) := kill os p pid
      (.ret (-1), if r = 0 then p.fprintf "daemon exists,use restart\n" else p)
  else if os.ppid = 1 then (.ret (-1), p.fprintf "already daemon,can't start\n")
  else (.fork, p)

/-- The loop of `daemonStop`, for this many rounds more. -/
def waitExit (pid : Int) : Nat → Process → Int × Process
  | 0, p => (-1, p.fprintf "signal sended , but still exist after 3 seconds")
  | n + 1, p =>
    let (r, p) := kill os p pid
    if r ≠ 0 then (0, p.fprintf ("program " ++ toString pid ++ " exit ")) else waitExit pid n p

def daemonStop (pidfile : String) (p : Process) : Int × Process :=
  let (pid, p) := getPidFromFile os p
  if pid ≤ 0 then (-1, p.fprintf (" " ++ pidfile ++ " daemon not exist"))
  else
    let (r, p) := kill os p pid
    if r < 0 then (-1, p.fprintf ("program " ++ toString pid ++ " not exist"))
    else waitExit os pid 300 p

def daemonRestart (pidfile : String) (p : Process) : Outcome × Process :=
  let (pid, p) := getPidFromFile os p
  if 0 < pid then
    let (r, p) := kill os p pid
    if r = 0 then
      let (r, p) := daemonStop os pidfile p
      if r < 0 then (.ret r, p) else daemonStart os (p.fprintf "pidfile not valid")
    else if p.errno = EPERM then
      (.ret (-1), p.fprintf ("don't have permission to kill " ++ toString pid ++ " programs"))
    else daemonStart os (p.fprintf "pidfile not valid")
  else daemonStart os (p.fprintf "pidfile not valid")

/-! ## Many processes -/

/-- A process number. -/
abbrev Pid := { n : Nat // 0 < n ∧ n ≤ 0x7fffffff }

/-- The call before which a process is, or what has become of it. From the `fork` on it is the child. -/
inductive Pc
  | idle
  | probe
  | fork
  | openPid (pid : Pid)
  | lock (pid : Pid) (fd : Nat)
  | write (pid : Pid) (fd : Option Nat)
  /-- `written`: whether `WritePidtoFile` returns 0. -/
  | close (pid : Pid) (fd : Option Nat) (written : Bool)
  | openNull (pid : Pid)
  /-- `daemonStart` has returned 0. -/
  | daemon (pid : Pid)
  | ended
  deriving DecidableEq

def Pc.pid : Pc → Option Pid
  | .openPid pid | .lock pid _ | .write pid _ | .close pid _ _ | .openNull pid | .daemon pid => some pid
  | .idle | .probe | .fork | .ended => none

variable {ν : Type}

structure Sys (ν : Type) where
  files : Files ν UInt8
  /-- The files that are locked, and by whom. -/
  locks : List (Nat × Nat)
  pcs : List Pc

inductive Event
  | read (i : Nat) (beyond : Bytes)
  /-- The pid file cannot be opened or read, for want of descriptors or memory. -/
  | unread (i : Nat)
  | probe (i : Nat)
  | orphan (i : Nat)
  | fork (i : Nat) (pid : Option Pid)
  | openPid (i : Nat) (ok : Bool)
  | lock (i : Nat) (ok : Bool)
  | write (i : Nat) (ret : Nat)
  | close (i : Nat)
  | openNull (i : Nat) (ok : Bool)
  /-- The end of a daemon, which unlinks its pid file. -/
  | exit (i : Nat)
  /-- The end of a process that is killed. -/
  | killed (i : Nat)
  deriving DecidableEq

/-- What `getPidFromFile` returns. -/
def pidIn (files : Files ν UInt8) (pidfile : ν) (beyond : Bytes) : Int :=
  match files.content pidfile with
  | none => -1
  | some content => pidOf beyond content

/-- `"%d\n"`. -/
def line (pid : Pid) : Bytes := Decimal.digits pid ++ ['\n'.toUInt8]

variable [DecidableEq ν]

inductive Step (pidfile : ν) : Sys ν → Event → Sys ν → Prop
  | found {i beyond} : At pcs i .idle → 0 < pidIn files pidfile beyond →
    Step pidfile ⟨files, locks, pcs⟩ (.read i beyond) ⟨files, locks, pcs.set i .probe⟩
  | free {i beyond} : At pcs i .idle → pidIn files pidfile beyond ≤ 0 →
    Step pidfile ⟨files, locks, pcs⟩ (.read i beyond) ⟨files, locks, pcs.set i .fork⟩
  | unread {i} : At pcs i .idle →
    Step pidfile ⟨files, locks, pcs⟩ (.unread i) ⟨files, locks, pcs.set i .fork⟩
  | probe {i} : At pcs i .probe →
    Step pidfile ⟨files, locks, pcs⟩ (.probe i) ⟨files, locks, pcs.set i .ended⟩
  | orphan {i} : At pcs i .fork →
    Step pidfile ⟨files, locks, pcs⟩ (.orphan i) ⟨files, locks, pcs.set i .ended⟩
  | fork {i pid} : At pcs i .fork → (∀ a ∈ pcs, a.pid ≠ some pid) →
    Step pidfile ⟨files, locks, pcs⟩ (.fork i (some pid)) ⟨files, locks, pcs.set i (.openPid pid)⟩
  | forkFails {i} : At pcs i .fork →
    Step pidfile ⟨files, locks, pcs⟩ (.fork i none) ⟨files, locks, pcs.set i .ended⟩
  | openPid {i pid} : At pcs i (.openPid pid) → files.openFile pidfile = some (files', fd) →
    Step pidfile ⟨files, locks, pcs⟩ (.openPid i true)
      ⟨files'.setData fd [], locks, pcs.set i (.lock pid fd)⟩
  | openFails {i pid} : At pcs i (.openPid pid) →
    Step pidfile ⟨files, locks, pcs⟩ (.openPid i false) ⟨files, locks, pcs.set i (.write pid none)⟩
  | lock {i pid fd} : At pcs i (.lock pid fd) → (∀ j, (fd, j) ∉ locks) →
    Step pidfile ⟨files, locks, pcs⟩ (.lock i true)
      ⟨files, (fd, i) :: locks, pcs.set i (.write pid (some fd))⟩
  -- only a message
  | lockFails {i pid fd} : At pcs i (.lock pid fd) → (∃ j, (fd, j) ∈ locks) →
    Step pidfile ⟨files, locks, pcs⟩ (.lock i false) ⟨files, locks, pcs.set i (.write pid (some fd))⟩
  | write {i pid fd ret} : At pcs i (.write pid (some fd)) → ret ≤ (line pid).length →
    Step pidfile ⟨files, locks, pcs⟩ (.write i ret)
      ⟨files.setData fd ((line pid).take ret ++ (files.data fd).drop ret), locks,
        pcs.set i (.close pid (some fd) (ret = (line pid).length))⟩
  | writeFails {i pid} : At pcs i (.write pid none) →
    Step pidfile ⟨files, locks, pcs⟩ (.write i 0) ⟨files, locks, pcs.set i (.close pid none false)⟩
  -- the locks of the process on the file go with the descriptor
  | close {i pid fd written} : At pcs i (.close pid fd written) →
    Step pidfile ⟨files, locks, pcs⟩ (.close i)
      ⟨files, locks.filter fun l => l.2 ≠ i, pcs.set i (if written then .openNull pid else .ended)⟩
  | openNull {i pid ok} : At pcs i (.openNull pid) →
    Step pidfile ⟨files, locks, pcs⟩ (.openNull i ok)
      ⟨files, locks, pcs.set i (if ok then .daemon pid else .ended)⟩
  | exit {i pid} : At pcs i (.daemon pid) →
    Step pidfile ⟨files, locks, pcs⟩ (.exit i) ⟨files.unlink pidfile, locks, pcs.set i .ended⟩
  | killed {i a} : At pcs i a →
    Step pidfile ⟨files, locks, pcs⟩ (.killed i)
      ⟨files, locks.filter fun l => l.2 ≠ i, pcs.set i .ended⟩

/-- Processes that have not called `daemonStart` yet. -/
def Sys.init (files : Files ν UInt8) (n : Nat) : Sys ν := ⟨files, [], .replicate n .idle⟩

end NetLibrary.Daemon
