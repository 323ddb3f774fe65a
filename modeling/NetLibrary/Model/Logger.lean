import NetLibrary.Theory.Calendar
import NetLibrary.Theory.Files
import NetLibrary.Theory.Threads

/-!
# The logger and the rotation of its file

`Logger` of `logging.h` and `logging.cc`, in a time zone whose offset is fixed. A time is a number of seconds,
and a path is a list of characters. `maybeRotate` and `logv` are what one thread does alone, where
every `rename` and `open` succeeds. `Step` is the part of `maybeRotate` before the `rename`, read by read and
write by write, in any number of threads.
-/

namespace NetLibrary

abbrev Path := List Char

/-- What the calls of `logv` do not change. -/
structure Logger where
  filename : Path
  rotateInterval : Int := 86400
  level : Nat := 4
  /-- `timezone`: the seconds that local time is behind. -/
  timezone : Int := 0

namespace Logger
open Threads

/-- The period of a time. Division is that of C. -/
def bucket (L : Logger) (t : Int) : Int := (t - L.timezone).tdiv L.rotateInterval

/-! ## The name of a rotated file -/

/-- `%d`. -/
def formatD (n : Int) : Path :=
  if n < 0 then '-' :: Nat.toDigits 10 n.natAbs else Nat.toDigits 10 n.natAbs

/-- `%02d` of a number that is not negative. -/
def format02d (n : Int) : Path :=
  if (Nat.toDigits 10 n.natAbs).length < 2 then '0' :: Nat.toDigits 10 n.natAbs
  else Nat.toDigits 10 n.natAbs

/-- The `struct tm` of `localtime_r`. -/
def localtime (L : Logger) (now : Int) : Calendar.DateTime := Calendar.dateTime (now - L.timezone)

/-- What `snprintf` prints after the name of the file. -/
def date (L : Logger) (now : Int) : Path :=
  let t := L.localtime now
  '.' :: formatD t.year ++ format02d t.month ++ format02d t.day ++ format02d t.hour ++ format02d t.minute

/-- `newName`, an array of 4096 bytes. -/
def newName (L : Logger) (now : Int) : Path := (L.filename ++ L.date now).take (1024 * 4 - 1)

/-! ## One thread -/

/-- A logger, its files, and what has been done with it. -/
structure Sys (ρ : Type) where
  files : Files Path ρ
  /-- The file of `m_fd`. -/
  fd : Nat
  lastRotate : Int
  realRotate : Int
  /-- The last time that the clock has shown. -/
  clock : Int
  /-- The times of the rotations so far. -/
  rotated : List Int := []
  /-- The records that were written. -/
  written : List ρ := []

variable {ρ : Type}

/-- `rename`, `open`, `dup2` and `close` of `maybeRotate`. -/
def rotate (L : Logger) (s : Sys ρ) (now : Int) : Sys ρ :=
  let files := s.files.rename L.filename (L.newName now)
  match files.openFile L.filename with
  | none => { s with files }
  | some (files, fd) => { s with files, fd, rotated := s.rotated ++ [now] }

def maybeRotate (L : Logger) (s : Sys ρ) (now : Int) : Sys ρ :=
  if L.filename = [] ∨ L.bucket now = L.bucket s.lastRotate then s
  else
    let old := s.realRotate
    let s := { s with lastRotate := now, realRotate := now }
    if L.bucket old = L.bucket s.lastRotate then s
    else L.rotate s now

/-- `logv` of a record, at a time at which `maybeRotate` reads the clock. -/
def logv (L : Logger) (s : Sys ρ) (now : Int) (level : Nat) (record : ρ) : Sys ρ :=
  if L.level < level then s
  else
    let s := L.maybeRotate s now
    { s with
      files := s.files.setData s.fd (s.files.data s.fd ++ [record])
      written := s.written ++ [record] }

/-- A call of `logv`. -/
structure Call (ρ : Type) where
  now : Int
  level : Nat
  record : ρ

/-- The clock does not go backwards. -/
def step (L : Logger) (s : Sys ρ) (c : Call ρ) : Option (Sys ρ) :=
  if s.clock ≤ c.now then some (L.logv { s with clock := c.now } c.now c.level c.record) else none

/-- A logger that was constructed at the time `start`, after `setFileName`. -/
def Sys.init (L : Logger) (ρ : Type) (start : Int) : Sys ρ where
  files := (Files.empty Path ρ).create L.filename
  fd := 0
  lastRotate := start
  realRotate := start
  clock := start

/-! ## Many threads -/

/-- Where a thread is in `maybeRotate`. `now` is what it has read from the clock, `old` what the exchange
gave it. -/
inductive Pc
  | idle
  /-- Before it reads `m_lastRotate` for the first time. -/
  | sampled (now : Int)
  /-- Before it writes `m_lastRotate`. -/
  | store (now : Int)
  | exchange (now : Int)
  /-- Before it reads `m_lastRotate` for the second time. -/
  | exchanged (now old : Int)
  deriving DecidableEq, Repr

structure Shared where
  lastRotate : Int
  realRotate : Int
  clock : Int
  pcs : List Pc
  deriving DecidableEq, Repr

/-- What a thread does: it reads the clock, reads, writes or exchanges a time, or gets past both checks and
goes on to the `rename`. -/
inductive Event
  | sample (i : Nat) (now : Int)
  | check₁ (i : Nat)
  | store (i : Nat)
  | exchange (i : Nat)
  | check₂ (i : Nat)
  | rename (i : Nat) (now : Int)
  deriving DecidableEq, Repr

inductive Step (L : Logger) : Shared → Event → Shared → Prop
  | sample {i now} : At pcs i .idle → clock ≤ now →
    Step L ⟨last, real, clock, pcs⟩ (.sample i now) ⟨last, real, now, pcs.set i (.sampled now)⟩
  | return₁ {i now} : At pcs i (.sampled now) → L.filename = [] ∨ L.bucket now = L.bucket last →
    Step L ⟨last, real, clock, pcs⟩ (.check₁ i) ⟨last, real, clock, pcs.set i .idle⟩
  | pass₁ {i now} : At pcs i (.sampled now) → L.filename ≠ [] → L.bucket now ≠ L.bucket last →
    Step L ⟨last, real, clock, pcs⟩ (.check₁ i) ⟨last, real, clock, pcs.set i (.store now)⟩
  | store {i now} : At pcs i (.store now) →
    Step L ⟨last, real, clock, pcs⟩ (.store i) ⟨now, real, clock, pcs.set i (.exchange now)⟩
  | exchange {i now} : At pcs i (.exchange now) →
    Step L ⟨last, real, clock, pcs⟩ (.exchange i) ⟨last, now, clock, pcs.set i (.exchanged now real)⟩
  | return₂ {i now old} : At pcs i (.exchanged now old) → L.bucket old = L.bucket last →
    Step L ⟨last, real, clock, pcs⟩ (.check₂ i) ⟨last, real, clock, pcs.set i .idle⟩
  | rename {i now old} : At pcs i (.exchanged now old) → L.bucket old ≠ L.bucket last →
    Step L ⟨last, real, clock, pcs⟩ (.rename i now) ⟨last, real, clock, pcs.set i .idle⟩

/-- A logger that was constructed at the time `start`, and `n` threads that use it. -/
def Shared.init (start : Int) (n : Nat) : Shared := ⟨start, start, start, .replicate n .idle⟩

end Logger

end NetLibrary
