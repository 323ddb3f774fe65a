import Mathlib.Logic.Function.Basic
import NetLibrary.Model.Buffer
import NetLibrary.Theory.Slots

/-!
# Buffers as objects

`Buffer` of `buffer.h` and `buffer.cpp` once more, as objects that own blocks of a heap: `buf` is null or the
index of a block, and a method works on the members of its object and on the heap. What an object and its
block are together is a `Buffer` of Model.Buffer, its `value`. An access through a null pointer or to a block that
was released is undefined in the source, and changes nothing here.
-/

namespace NetLibrary.BufferObject
open Function

/-- The members of a `Buffer`. -/
structure Object where
  buf : Option Nat := none
  b : Nat := 0
  e : Nat := 0
  cap : Nat := 0
  exp : Nat := 512
  deriving DecidableEq, Repr

/-- The blocks that were allocated, `none` for one that was released. -/
abbrev Heap := List (Option (List Cell))

/-- `delete[]`. -/
def Heap.delete (H : Heap) : Option Nat → Heap
  | none => H
  | some p => H.set p none

/-- A write to the cells of a block from index `i` on. -/
def Heap.write (H : Heap) (i : Nat) (bytes : List Cell) : Option Nat → Heap
  | none => H
  | some p => H.set p ((Slots.get H p).map (Block.blit · i bytes))

/-- An object, `*this`, with the heap. -/
structure This where
  heap : Heap
  obj : Object
  deriving DecidableEq, Repr

namespace This

/-- The value of the object. -/
def value (t : This) : Buffer where
  buf := t.obj.buf.bind (Slots.get t.heap)
  b := t.obj.b
  e := t.obj.e
  cap := t.obj.cap
  exp := t.obj.exp

def content (t : This) : List Cell := t.value.content

def size (t : This) : Nat := t.obj.e - t.obj.b

def space (t : This) : Nat := t.obj.cap - t.obj.e

def clear (t : This) : This where
  heap := t.heap.delete t.obj.buf
  obj := { t.obj with buf := none, cap := 0, b := 0, e := 0 }

def addSize (t : This) (len : Nat) : This := { t with obj := { t.obj with e := t.obj.e + len } }

def moveHead (t : This) : This where
  heap := t.heap.write 0 t.content t.obj.buf
  obj := { t.obj with e := t.obj.e - t.obj.b, b := 0 }

def expand (t : This) (len : Nat) : This :=
  let ncap := max t.obj.exp (max (2 * t.obj.cap) (t.size + len))
  let p := t.heap.length
  let heap := t.heap ++ [some (Block.blit (Buffer.newBlock ncap) 0 t.content)]
  { heap := heap.delete t.obj.buf
    obj := { t.obj with buf := some p, e := t.obj.e - t.obj.b, b := 0, cap := ncap } }

/-- `makeRoom(len)`. -/
def makeRoom (t : This) (len : Nat) : This :=
  if t.obj.e + len ≤ t.obj.cap then t
  else if t.size + len < t.obj.cap / 2 then t.moveHead
  else t.expand len

/-- `makeRoom()`. -/
def makeRoom' (t : This) : This := if t.space < t.obj.exp then t.expand 0 else t

/-- A write through a pointer into the block. -/
def store (t : This) (i : Nat) (bytes : List Cell) : This := { t with heap := t.heap.write i bytes t.obj.buf }

def allocRoom (t : This) (len : Nat) : This × Nat :=
  let t := t.makeRoom len
  (t.addSize len, t.obj.e)

def append (t : This) (bytes : List Cell) : This :=
  let (t, p) := t.allocRoom bytes.length
  t.store p bytes

def consume (t : This) (len : Nat) : This :=
  let t : This := { t with obj := { t.obj with b := t.obj.b + len } }
  if t.size = 0 then t.clear else t

def setSuggestSize (t : This) (sz : Nat) : This := { t with obj := { t.obj with exp := sz } }

end This

/-- A family of objects in one heap. -/
structure State (ι : Type) where
  heap : Heap := []
  objs : ι → Object := fun _ => {}

namespace State

variable {ι : Type} [DecidableEq ι] (s : State ι)

def this (i : ι) : This := ⟨s.heap, s.objs i⟩

/-- The state that a method of object `i` leaves. -/
def put (i : ι) (t : This) : State ι := ⟨t.heap, update s.objs i t.obj⟩

def value (i : ι) : Buffer := (s.this i).value

/-- `copyFrom(b)` of object `i`, where `b` is object `j`. -/
def copyFrom (i j : ι) : State ι :=
  -- `memcpy(this, &b, sizeof b)`
  let s : State ι := { s with objs := update s.objs i (s.objs j) }
  match (s.objs j).buf with
  | none => s
  | some _ =>
    let p := s.heap.length
    let s : State ι :=
      { heap := s.heap ++ [some (Buffer.newBlock (s.objs i).cap)]
        objs := update s.objs i { s.objs i with buf := some p } }
    s.put i ((s.this i).store (s.objs i).b (s.this j).content)

/-- `*i = *j`, by `operator=`. -/
def assign (i j : ι) : State ι :=
  let s : State ι :=
    { heap := s.heap.delete (s.objs i).buf
      objs := update s.objs i { s.objs i with buf := none } }
  s.copyFrom i j

/-- `absorb` of object `j` by object `i`. -/
def absorb (i j : ι) : State ι :=
  if i = j then s
  else if (s.this i).size = 0 then
    let x := s.objs i
    let y := s.objs j
    { s with objs := update (update s.objs i { y with exp := x.exp }) j { x with exp := y.exp } }
  else
    let s := s.put i ((s.this i).append (s.this j).content)
    s.put j (s.this j).clear

/-- `Buffer()`, in the storage of object `i`. The copy constructor is `copyFrom`. -/
def construct (i : ι) : State ι := { s with objs := update s.objs i {} }

/-- `~Buffer()`. The object has no members any more, and those of a new one stand for them. -/
def destruct (i : ι) : State ι := s.put i ⟨s.heap.delete (s.objs i).buf, {}⟩

end State

/-! ## What is deleted

The pointers, other than null, that a method passes to `delete[]`. -/

namespace This

def deletes (t : This) : List Nat := t.obj.buf.toList

def makeRoomDeletes (t : This) (len : Nat) : List Nat :=
  if t.obj.e + len ≤ t.obj.cap then []
  else if t.size + len < t.obj.cap / 2 then []
  else t.deletes

def makeRoomDeletes' (t : This) : List Nat := if t.space < t.obj.exp then t.deletes else []

def consumeDeletes (t : This) (len : Nat) : List Nat :=
  let t : This := { t with obj := { t.obj with b := t.obj.b + len } }
  if t.size = 0 then t.deletes else []

end This

def State.absorbDeletes {ι : Type} [DecidableEq ι] (s : State ι) (i j : ι) : List Nat :=
  if i = j then []
  else if (s.this i).size = 0 then []
  else (s.this i).makeRoomDeletes (s.this j).content.length ++ (s.this j).deletes

end NetLibrary.BufferObject
