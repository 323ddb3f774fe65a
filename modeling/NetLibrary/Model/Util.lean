import NetLibrary.Model.Conf
import NetLibrary.Theory.Decimal

/-!
# Numbers and texts

`util::atoi`, `util::atoi2` and `util::format` of `util.cc`. A range of the memory is given by its bytes, with
what follows it up to a NUL, and a buffer by the bytes that were written to it.
-/

namespace NetLibrary.Util

/-- A range `[b, e)`: its bytes, and those from `e` up to a NUL. -/
structure Range where
  bytes : Bytes
  beyond : Bytes
  deriving DecidableEq, Repr

/-- `strtol(b, ..., 10)`. -/
def strtol (r : Range) : Int := Decimal.strtol isspace (r.bytes ++ r.beyond)

/-- `atoi(b, e)`. The end of the number is stored in the parameter `e`, which is not read again. -/
def atoi (r : Range) : Int := strtol r

/-- The parameters of `atoi2`, as what `ne` may point to. -/
inductive Param
  | b
  | e
  deriving DecidableEq, Repr

/-- `atoi2(b, e)`. -/
def atoi2 (r : Range) : Int :=
  let ne := Param.e
  let v := strtol r
  if ne = Param.e then v else -1

/-- `%d`. -/
def formatD (n : Int) : Bytes :=
  if n < 0 then '-'.toUInt8 :: Decimal.digits n.natAbs else Decimal.digits n.natAbs

/-- `vsnprintf` of what the format and its arguments say as a whole: what it writes, and what it returns. -/
def vsnprintf (size : Nat) (text : Bytes) : Bytes × Nat := (text.take (size - 1) ++ [0], text.length)

/-- `string(base)`. -/
def cString (base : Bytes) : Bytes := base.takeWhile (· ≠ 0)

/-- The loop of `format`, with the sizes of the buffers that are still to be tried. -/
def formatLoop (text : Bytes) : List Nat → Bytes
  | [] => []
  | bufsize :: later =>
    let (base, n) := vsnprintf bufsize text
    if n ≥ bufsize then
      if later = [] then cString (base.set (bufsize - 1) 0)
      else formatLoop text later
    else cString base

def format (text : Bytes) : Bytes := formatLoop text [10, 1000]

end NetLibrary.Util
