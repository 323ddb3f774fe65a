import NetLibrary.Model.Logger

/-!
# The logger and its descriptor

`setFileName`, `logv` with `maybeRotate`, and `~Logger` of `logging.cc`, with the descriptors of the whole
process. The rest of the process opens and closes descriptors of its own and changes files. What the
system calls return is an input: a function is `none` where the files or the descriptors do not allow it.
`m_fd` is `none` for -1.
-/

namespace NetLibrary.LogFile
open Function

structure World where
  files : Files Path UInt8
  /-- The file of each descriptor that is open. -/
  fds : Nat → Option Nat
  /-- Those of the rest of the process, as it has opened them. -/
  others : Nat → Option Nat
  logger : Logger
  fd : Option Nat := none
  lastRotate : Int
  realRotate : Int

/-- The results of the system calls of one `maybeRotate`. -/
structure Calls where
  /-- `rename` succeeds. -/
  rename : Bool
  openRet : Option Nat
  dup2 : Bool
  deriving DecidableEq, Repr

namespace World

/-- `open` with `O_APPEND | O_CREAT | O_WRONLY`, which returns `fd`. -/
def openFile (w : World) (name : Path) (fd : Nat) : Option World :=
  if w.fds fd = none then
    (w.files.openFile name).map fun r => { w with files := r.1, fds := update w.fds fd (some r.2) }
  else none

/-- `dup2(fd, m_fd)`, which may fail, and `close(fd)`. -/
def replace (w : World) (fd : Nat) (dup2 : Bool) : World :=
  match w.fd with
  | some m =>
    let fds := if dup2 then update w.fds m (w.fds fd) else w.fds
    { w with fds := update fds fd none }
  | none => { w with fds := update w.fds fd none }

def setFileName (w : World) (fname : Path) (openRet : Option Nat) (dup2 : Bool) : Option World :=
  match openRet with
  | none => some w
  | some fd => (w.openFile fname fd).map fun w =>
    let w := { w with logger := { w.logger with filename := fname } }
    match w.fd with
    | none => { w with fd := some fd }
    | some _ => w.replace fd dup2

/-- The `rename`, and the `open` of the file's name. -/
def rotate (w : World) (now : Int) (c : Calls) : Option World :=
  if !c.rename then some w
  else if w.files.entry w.logger.filename = none then none
  else
    let w := { w with files := w.files.rename w.logger.filename (w.logger.newName now) }
    match c.openRet with
    | none => some w
    | some fd => (w.openFile w.logger.filename fd).map fun w => w.replace fd c.dup2

def maybeRotate (w : World) (now : Int) (c : Calls) : Option World :=
  if w.logger.filename = [] ∨ w.logger.bucket now = w.logger.bucket w.lastRotate then some w
  else
    let old := w.realRotate
    let w := { w with lastRotate := now, realRotate := now }
    if w.logger.bucket old = w.logger.bucket w.lastRotate then some w
    else w.rotate now c

/-- `write(fd, buf, pb-buf)` with `m_fd`, or with 1. It may fail or write a part. -/
def write (w : World) (record : List UInt8) : Option Nat → Option World
  | none => some w
  | some n =>
    match w.fds (w.fd.getD 1) with
    | some i =>
      if n ≤ record.length then some { w with files := w.files.setData i (w.files.data i ++ record.take n) }
      else none
    | none => none

def logv (w : World) (now : Int) (level : Nat) (record : List UInt8) (c : Calls) (writeRet : Option Nat) :
    Option World :=
  if w.logger.level < level then some w
  else (w.maybeRotate now c).bind fun w => w.write record writeRet

/-- `setLogLevel(LogLevel)`. -/
def setLogLevel (w : World) (level : Nat) : World := { w with logger := { w.logger with level := min 7 level } }

def setRotateInterval (w : World) (rotateInterval : Int) : World :=
  { w with logger := { w.logger with rotateInterval } }

/-- `~Logger`. -/
def destroy (w : World) : World :=
  match w.fd with
  | some m => { w with fds := update w.fds m none }
  | none => w

/-- A new logger. -/
def init (files : Files Path UInt8) (others : Nat → Option Nat) (timezone start : Int) : World where
  files
  fds := others
  others
  logger := { filename := [], timezone }
  lastRotate := start
  realRotate := start

end World

inductive Event
  | setFileName (fname : Path) (openRet : Option Nat) (dup2 : Bool)
  | setLogLevel (level : Nat)
  | setRotateInterval (rotateInterval : Int)
  | logv (now : Int) (level : Nat) (record : List UInt8) (c : Calls) (writeRet : Option Nat)
  | openOther (fd i : Nat)
  | closeOther (fd : Nat)
  /-- The rest of the process, or another one, changes files. -/
  | files

inductive Step : World → Event → World → Prop
  | setFileName {w w' : World} {fname openRet dup2} : w.setFileName fname openRet dup2 = some w' →
    Step w (.setFileName fname openRet dup2) w'
  | setLogLevel {w : World} {level} : Step w (.setLogLevel level) (w.setLogLevel level)
  /-- `maybeRotate` divides by it. -/
  | setRotateInterval {w : World} {rotateInterval} : rotateInterval ≠ 0 →
    Step w (.setRotateInterval rotateInterval) (w.setRotateInterval rotateInterval)
  | logv {w w' : World} {now level record c writeRet} : w.logv now level record c writeRet = some w' →
    Step w (.logv now level record c writeRet) w'
  | openOther {w : World} {fd i} : w.fds fd = none →
    Step w (.openOther fd i) { w with fds := update w.fds fd (some i), others := update w.others fd (some i) }
  | closeOther {w : World} {fd} : w.others fd ≠ none →
    Step w (.closeOther fd) { w with fds := update w.fds fd none, others := update w.others fd none }
  | files {w : World} {files} : Step w .files { w with files }

end NetLibrary.LogFile
