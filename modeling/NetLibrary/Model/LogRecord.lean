import NetLibrary.Model.Buffer
import NetLibrary.Model.Util

/-!
# A log record

The part of `Logger::logv` of `logging.cc` that puts a record together in a buffer on the stack. `buf` is an
array of `4 * 1024` cells and `pb` an offset into it, which the results of `snprintf` and `vsnprintf` may take
past its end. A read or write outside of the array, or a read of a cell that was not written, is undefined: its
result is `none`. The text of the message, which `vsnprintf` makes of the format and its arguments, is given as a
whole.
-/

namespace NetLibrary.LogRecord

inductive LogLevel
  | LFATAL
  | LERROR
  | LUERR
  | LWARN
  | LINFO
  | LDEBUG
  | LTRACE
  | LALL
  deriving DecidableEq, Repr

def LogLevel.toNat : LogLevel → Nat
  | .LFATAL => 0
  | .LERROR => 1
  | .LUERR => 2
  | .LWARN => 3
  | .LINFO => 4
  | .LDEBUG => 5
  | .LTRACE => 6
  | .LALL => 7

def ascii (cs : List Char) : Bytes := cs.map Char.toUInt8

def levelStr : LogLevel → Bytes
  | .LFATAL => ascii ['F', 'A', 'T', 'A', 'L']
  | .LERROR => ascii ['E', 'R', 'R', 'O', 'R']
  | .LUERR => ascii ['U', 'E', 'R', 'R']
  | .LWARN => ascii ['W', 'A', 'R', 'N']
  | .LINFO => ascii ['I', 'N', 'F', 'O']
  | .LDEBUG => ascii ['D', 'E', 'B', 'U', 'G']
  | .LTRACE => ascii ['T', 'R', 'A', 'C', 'E']
  | .LALL => ascii ['A', 'L', 'L']

/-- `struct tm` and `tv_usec`, with the id of the thread. -/
structure Now where
  tm_year : Int
  tm_mon : Int
  tm_mday : Int
  tm_hour : Int
  tm_min : Int
  tm_sec : Int
  tv_usec : Int
  tid : Nat
  deriving Repr

/-- The arguments of `logv`, with what `fmt` and the rest of them print. -/
structure Call where
  level : LogLevel
  name : Bytes
  line : Int
  message : Bytes
  deriving Repr

/-- `%0wd`. -/
def format0D (w : Nat) (n : Int) : Bytes :=
  let sign := if n < 0 then ['-'.toUInt8] else []
  let ds := Decimal.digits n.natAbs
  sign ++ List.replicate (w - sign.length - ds.length) '0'.toUInt8 ++ ds

/-- `%lx`. -/
def formatX (n : Nat) : Bytes := ascii (Nat.toDigits 16 n)

/-- What the first `snprintf` prints. -/
def header (now : Now) (c : Call) : Bytes :=
  format0D 4 (now.tm_year + 1900) ++ ['/'.toUInt8] ++ format0D 2 (now.tm_mon + 1) ++ ['/'.toUInt8] ++
    format0D 2 now.tm_mday ++ ['-'.toUInt8] ++ format0D 2 now.tm_hour ++ [':'.toUInt8] ++
    format0D 2 now.tm_min ++ [':'.toUInt8] ++ format0D 2 now.tm_sec ++ [':'.toUInt8] ++
    format0D 6 now.tv_usec ++ [' '.toUInt8] ++ formatX now.tid ++ [' '.toUInt8] ++ levelStr c.level ++
    [' '.toUInt8] ++ c.name ++ [':'.toUInt8] ++ Util.formatD c.line ++ [' '.toUInt8, ' '.toUInt8]

/-- `sizeof(buf)`. -/
def bufSize : Nat := 4 * 1024

/-- The local variables, with the sizes that were passed so far beside the room that was left. -/
structure Frame where
  buf : List Cell
  pb : Int
  passed : List (Nat × Int) := []
  deriving DecidableEq, Repr

/-- The bytes from offset `i` on are overwritten. -/
def store (buf : List Cell) (i : Int) (bs : Bytes) : Option (List Cell) :=
  if bs = [] then some buf
  else if 0 ≤ i ∧ i + bs.length ≤ bufSize then some (Block.blit buf i.toNat (bs.map some))
  else none

/-- `pb += snprintf(pb, pe - pb, ...)`, of a text. The size is a `size_t`. -/
def print (f : Frame) (text : Bytes) : Option Frame := do
  let room : Int := bufSize - f.pb
  let size := (room % 0x10000000000000000).toNat
  let buf ← store f.buf f.pb (if size = 0 then [] else text.take (size - 1) ++ [0])
  return { buf, pb := f.pb + text.length, passed := f.passed ++ [(size, room)] }

/-- `while (*--pb == '\n')`: the `pb` at which it stops. -/
def back (buf : List Cell) : Nat → Option Nat
  | 0 => none
  | pb + 1 => do
    let c ← buf[pb]?.join
    if c = '\n'.toUInt8 then back buf pb else return pb

/-- What `write` is given, and the sizes that were passed. -/
structure Output where
  passed : List (Nat × Int)
  bytes : List Cell
  deriving DecidableEq, Repr

/-- A record with this header and this message. -/
def emit (header message : Bytes) : Option Output := do
  let f : Frame := { buf := List.replicate bufSize none, pb := 0 }
  let f ← print f header
  let f ← print f message
  let pb := min f.pb (bufSize - 2)
  let pb ← back f.buf pb.toNat
  let buf ← store f.buf (pb + 1) ['\n'.toUInt8]
  let buf ← store buf (pb + 2) [0]
  return { passed := f.passed, bytes := buf.take (pb + 2) }

/-- `logv`, after the rotation of the file: nothing at all, if the level is not enabled. -/
def logv (m_level : LogLevel) (now : Now) (c : Call) : Option (Option Output) :=
  if c.level.toNat > m_level.toNat then some none else (emit (header now c) c.message).map some

end NetLibrary.LogRecord
