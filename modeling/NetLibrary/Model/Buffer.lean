import NetLibrary.Theory.Block

/-!
# The byte buffer

`Buffer` of `buffer.h` and `buffer.cpp`: a heap block `buf` of `cap` bytes whose content is the
bytes from index `b` up to index `e`. A pointer into the block is its index. Sizes are natural
numbers: the arithmetic on `size_t` is exact as long as no size reaches `2 ^ 64`.
-/

namespace NetLibrary

/-- A byte of memory, `none` until it is first written: `new char[n]` leaves its bytes
indeterminate. -/
abbrev Cell := Option UInt8

structure Buffer where
  /-- `buf_`: null, or a block of cells. -/
  buf : Option (List Cell) := none
  b : Nat := 0
  e : Nat := 0
  cap : Nat := 0
  exp : Nat := 512
  deriving DecidableEq, Repr

namespace Buffer

/-- The cells that `buf_` points to. -/
def mem (x : Buffer) : List Cell := x.buf.getD []

/-- The bytes from `begin()` up to `end()`. -/
def content (x : Buffer) : List Cell := Block.slice x.mem x.b x.e

def size (x : Buffer) : Nat := x.e - x.b

def empty (x : Buffer) : Bool := x.e == x.b

def space (x : Buffer) : Nat := x.cap - x.e

/-- `new char[n]`. -/
def newBlock (n : Nat) : List Cell := List.replicate n none

def clear (x : Buffer) : Buffer := { x with buf := none, cap := 0, b := 0, e := 0 }

def addSize (x : Buffer) (len : Nat) : Buffer := { x with e := x.e + len }

def moveHead (x : Buffer) : Buffer :=
  { x with buf := x.buf.map (Block.blit · 0 x.content), e := x.e - x.b, b := 0 }

def expand (x : Buffer) (len : Nat) : Buffer :=
  let ncap := max x.exp (max (2 * x.cap) (x.size + len))
  { x with buf := some (Block.blit (newBlock ncap) 0 x.content), e := x.e - x.b, b := 0, cap := ncap }

/-- `makeRoom(size_t len)`. The pointer that it returns is `end()`, the index `e` of the result. -/
def makeRoom (x : Buffer) (len : Nat) : Buffer :=
  if x.e + len ≤ x.cap then x
  else if x.size + len < x.cap / 2 then x.moveHead
  else x.expand len

/-- `makeRoom()`. -/
def makeRoom' (x : Buffer) : Buffer := if x.space < x.exp then x.expand 0 else x

/-- `allocRoom`, with the index that it returns as a pointer. -/
def allocRoom (x : Buffer) (len : Nat) : Buffer × Nat :=
  let x := x.makeRoom len
  (x.addSize len, x.e)

/-- A write of the caller through a pointer into the block. -/
def store (x : Buffer) (p : Nat) (bytes : List Cell) : Buffer :=
  { x with buf := x.buf.map (Block.blit · p bytes) }

/-- `append(const char*, size_t)` of bytes that do not lie in the buffer itself. -/
def append (x : Buffer) (bytes : List Cell) : Buffer :=
  let (x, p) := x.allocRoom bytes.length
  x.store p bytes

/-- `appendValue(const T&)`, where `rep` gives the bytes that a value of `T` occupies. -/
def appendValue (rep : T → List Cell) (x : Buffer) (v : T) : Buffer := x.append (rep v)

def consume (x : Buffer) (len : Nat) : Buffer :=
  let x := { x with b := x.b + len }
  if x.size = 0 then x.clear else x

def setSuggestSize (x : Buffer) (sz : Nat) : Buffer := { x with exp := sz }

/-- `copyFrom(b)`, into a buffer that is not `b` itself. -/
def copyFrom (b : Buffer) : Buffer :=
  match b.buf with
  | none => b
  | some _ => { b with buf := some (Block.blit (newBlock b.cap) b.b b.content) }

/-- `absorb(buf)` for two different buffers: the new `*this` and the new `buf`. -/
def absorb (x buf : Buffer) : Buffer × Buffer :=
  if x.size = 0 then ({ buf with exp := x.exp }, { x with exp := buf.exp })
  else (x.append buf.content, buf.clear)

/-- What every operation keeps: the indices are in order, `buf_` is null exactly when `cap_` is
zero, and otherwise points to a block of `cap_` bytes. -/
structure WF (x : Buffer) : Prop where
  b_le_e : x.b ≤ x.e
  e_le_cap : x.e ≤ x.cap
  buf_none_iff : x.buf = none ↔ x.cap = 0
  length_mem : x.mem.length = x.cap

end Buffer

/-- A buffer that its operations can have built. -/
abbrev WFBuffer := { x : Buffer // x.WF }

end NetLibrary
