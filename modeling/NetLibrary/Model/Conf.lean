import Mathlib.Data.List.AList
import Mathlib.Data.List.DropRight
import NetLibrary.Theory.Numeral

/-!
# The configuration reader

`LineScanner` and `Conf` of `conf.h`. A file, a line and a string are lists of bytes. The cursor of a
scanner is what lies in memory from it to the end of the line buffer, and a read past that end is
`none`. `isspace` and `tolower` are those of the "C" locale.
-/

namespace NetLibrary

abbrev Bytes := List UInt8

/-- `isspace`. -/
def isspace (c : UInt8) : Bool := c = ' '.toUInt8 || (9 ≤ c && c ≤ 13)

/-- `tolower`. -/
def tolower (c : UInt8) : UInt8 := if 'A'.toUInt8 ≤ c ∧ c ≤ 'Z'.toUInt8 then c + 32 else c

/-- `makeKey(section, name)`. -/
def makeKey (sect name : Bytes) : Bytes := (sect ++ ['.'.toUInt8] ++ name).map tolower

structure LineScanner where
  p : Bytes
  err : Bool := false
  deriving DecidableEq, Repr

namespace LineScanner

/-- `while (*p && isspace(*p)) ++p`. -/
def spaces : Bytes → Option Bytes
  | [] => none
  | c :: p => if c ≠ 0 ∧ isspace c then spaces p else some (c :: p)

/-- `while (*e && !stop(*e)) ++e`: what lies before `e`, and `e`. -/
def till (stop : UInt8 → Bool) : Bytes → Option (Bytes × Bytes)
  | [] => none
  | c :: e =>
    if c ≠ 0 ∧ stop c = false then (till stop e).map fun (s, e) => (c :: s, e)
    else some ([], c :: e)

def skipSpace (ln : LineScanner) : Option LineScanner :=
  if ln.err then some ln else (spaces ln.p).map fun p => { ln with p }

/-- `rstrip` of the bytes from `b` up to `e`. -/
def rstrip (ln : LineScanner) (s : Bytes) : Bytes := if ln.err then s else s.rdropWhile isspace

def peerChar (ln : LineScanner) : Option (UInt8 × LineScanner) := do
  let ln ← ln.skipSpace
  return (← ln.p.head?, ln)

def skip (ln : LineScanner) (i : Nat) : LineScanner := { ln with p := ln.p.drop i }

/-- `match(c)`. -/
def match' (ln : LineScanner) (c : UInt8) : Option LineScanner := do
  let ln ← ln.skipSpace
  return { p := ln.p.drop 1, err := (← ln.p.head?) != c }

def consumeTill (ln : LineScanner) (c : UInt8) : Option (Bytes × LineScanner) := do
  let ln ← ln.skipSpace
  let (s, e) ← if ln.err then some ([], ln.p) else till (· = c) ln.p
  if (← e.head?) ≠ c then return ([], { ln with err := true })
  else return (ln.rstrip s, { ln with p := e })

def consumeTillEnd (ln : LineScanner) : Option (Bytes × LineScanner) := do
  let ln ← ln.skipSpace
  let (s, e) ← if ln.err then some ([], ln.p)
    else till (fun c => c = '#'.toUInt8 || c = ';'.toUInt8 || isspace c) ln.p
  return (ln.rstrip s, { ln with p := e })

end LineScanner

namespace Conf

/-- `m_values`. An entry is made by `operator[]` for a value that is pushed then. -/
abbrev Values := AList fun _ : Bytes => { l : List Bytes // l ≠ [] }

/-- `m_values[key].push_back(v)`. -/
def push (values : Values) (key v : Bytes) : Values :=
  values.insert key <|
    match values.lookup key with
    | none => ⟨[v], List.cons_ne_nil _ _⟩
    | some l => ⟨l.1 ++ [v], List.append_ne_nil_of_right_ne_nil _ (List.cons_ne_nil _ _)⟩

/-- What a line makes of `section`, `key` and `err`, and what it pushes under the new ones. -/
structure Line where
  sect : Bytes
  key : Bytes
  err : Bool := false
  value : Option Bytes := none
  deriving DecidableEq, Repr

/-- The last branch of the loop of `parse`, for a line that starts an entry. -/
def parseEntry (sect : Bytes) (ls : LineScanner) : Option Line := do
  let (key, ln) ← ls.consumeTill '='.toUInt8
  let (c, ln) ← ln.peerChar
  let (key, ln, err) ←
    if c = '='.toUInt8 then pure (key, ln, false)
    else do
      let (key, ln) ← ls.consumeTill ':'.toUInt8
      let ln ← ln.match' ':'.toUInt8
      pure (key, ln, ln.err)
  let (value, _) ← (ln.skip 1).consumeTillEnd
  return { sect, key, err, value := some value }

/-- The body of the loop of `parse`, without `m_values`, for the line in `buf`. -/
def parseLine (sect key buf : Bytes) : Option Line := do
  let (c, ln) ← LineScanner.peerChar { p := buf }
  if c = ';'.toUInt8 ∨ c = '#'.toUInt8 ∨ c = 0 then return { sect, key }
  else if c = '['.toUInt8 then
    let (sect, ln) ← (ln.skip 1).consumeTill ']'.toUInt8
    let ln ← ln.match' ']'.toUInt8
    return { sect, key := [], err := ln.err }
  else if isspace (← buf.head?) then
    if key = [] then return { sect, key, err := true }
    else
      let (v, _) ← ln.consumeTill 0
      return { sect, key, value := some v }
  else parseEntry sect ln

/-- `MAXSIZE`. -/
def maxSize : Nat := 1024

/-- What successive calls of `fgets(buf, MAXSIZE, fp)` read: each up to the end of a line, and at most
`MAXSIZE - 1` bytes. `cur` is what the call under way has read. -/
def reads (cur : Bytes) : Bytes → List Bytes
  | [] => if cur = [] then [] else [cur]
  | c :: file =>
    if c = '\n'.toUInt8 ∨ cur.length + 1 = maxSize - 1 then (cur ++ [c]) :: reads [] file
    else reads (cur ++ [c]) file

/-- What `fgets` leaves in the buffer: the bytes it read, a NUL, and beyond that what was there. -/
def fill (buf read : Bytes) : Bytes := read ++ 0 :: buf.drop (read.length + 1)

/-- The variables of `parse`. -/
structure State where
  values : Values
  sect : Bytes := []
  key : Bytes := []
  lineno : Nat := 0
  err : Bool := false

def State.step (s : State) (l : Line) : State where
  values := l.value.elim s.values (push s.values (makeKey l.sect l.key))
  sect := l.sect
  key := l.key
  lineno := s.lineno + 1
  err := l.err

/-- The loop of `parse`, over what the calls of `fgets` will read. -/
def loop (s : State) (buf : Bytes) : List Bytes → Option State
  | [] => some s
  | read :: reads =>
    if s.err then some s
    else do
      let l ← parseLine s.sect s.key (fill buf read)
      loop (s.step l) (fill buf read) reads

/-- `parse`, with `m_values` before and after. `file` is what `fopen` finds, and `buf` what `new`
finds in the memory of the line buffer. -/
def parse (values : Values) (buf : Bytes) (file : Option Bytes) : Option (Values × Int) :=
  match file with
  | none => some (values, -1)
  | some file => do
    let s ← loop { values } buf (reads [] file)
    return (s.values, if s.err then s.lineno else 0)

def get (values : Values) (sect name defaultValue : Bytes) : Bytes :=
  match values.lookup (makeKey sect name) with
  | none => defaultValue
  | some l => l.1.getLast l.2

def getStrings (values : Values) (sect name : Bytes) : List Bytes :=
  match values.lookup (makeKey sect name) with
  | none => []
  | some l => l.1

/-- What a function of C reads of `s.c_str()`. -/
def cStr (s : Bytes) : Bytes := s.takeWhile (· ≠ 0)

def getInteger (values : Values) (sect name : Bytes) (defaultValue : Int) : Int :=
  let res := get values sect name []
  (Numeral.strtol isspace (cStr res)).getD defaultValue

/-- The texts of a truth value, in small letters. -/
def words : Bool → List Bytes
  | true => [['t', 'r', 'u', 'e'], ['y', 'e', 's'], ['o', 'n'], ['1']].map (·.map Char.toUInt8)
  | false => [['f', 'a', 'l', 's', 'e'], ['n', 'o'], ['o', 'f', 'f'], ['0']].map (·.map Char.toUInt8)

def getBoolean (values : Values) (sect name : Bytes) (defaultValue : Bool) : Bool :=
  let res := (get values sect name []).map tolower
  if res ∈ words true then true
  else if res ∈ words false then false
  else defaultValue

end Conf

end NetLibrary
