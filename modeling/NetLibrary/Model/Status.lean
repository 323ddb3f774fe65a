import NetLibrary.Theory.Block
import NetLibrary.Theory.Slots

/-!
# The error status

`Status` of `status.h`, with the memory it allocates. A block is what one `new char[sz]` returns, and a
pointer is the index of its block, `none` for `NULL`. An operation that reads or writes outside a block
or uses one that has been freed is undefined, and so is a signed overflow: its result is `none`. A
`Status` object is the index of its `state`.
-/

namespace NetLibrary.StatusObject

/-- `numeric_limits<int>::max()`. -/
def intMax : Int := 2147483647

/-- A string, without the NUL at its end. -/
def CString := { bs : List (BitVec 8) // 0 ∉ bs }

/-- A byte in memory, `none` as long as it has not been written. -/
abbrev Cell := Option (BitVec 8)

/-- The blocks, `none` for one that has been freed. -/
abbrev Heap := List (Option (List Cell))

/-- The cells of a `uint32_t` or an `int32_t`. -/
def word (w : BitVec 32) : List Cell :=
  [some (w.extractLsb' 0 8), some (w.extractLsb' 8 8), some (w.extractLsb' 16 8),
    some (w.extractLsb' 24 8)]

def ofWord : List Cell → Option (BitVec 32)
  | [some a, some b, some c, some d] => some (d ++ c ++ b ++ a)
  | _ => none

/-- The cells of the characters of a string. -/
def CString.cells (msg : CString) : List Cell := msg.1.map some

/-- The characters up to the first NUL. -/
def cstr : List Cell → Option (List (BitVec 8))
  | [] | none :: _ => none
  | some b :: cells => if b = 0 then some [] else (cstr cells).map (b :: ·)

namespace Heap

/-- `new char[sz]`. -/
def alloc (h : Heap) (sz : Nat) : Heap × Nat := (h ++ [some (List.replicate sz none)], h.length)

/-- `delete[] state`. -/
def free (h : Heap) : Option Nat → Option Heap
  | none => some h
  | some p => (Slots.get h p).map fun _ => h.set p none

def read (h : Heap) (p i n : Nat) : Option (List Cell) :=
  (Slots.get h p).bind fun block =>
    if i + n ≤ block.length then some (Block.slice block i (i + n)) else none

def write (h : Heap) (p i : Nat) (cells : List Cell) : Option Heap :=
  (Slots.get h p).bind fun block =>
    if i + cells.length ≤ block.length then some (h.set p (some (Block.blit block i cells))) else none

/-- `code`. -/
def code (h : Heap) : Option Nat → Option (BitVec 32)
  | none => some 0
  | some p => (h.read p 4 4).bind ofWord

/-- The characters that a reader of `msg` reads. -/
def msg (h : Heap) : Option Nat → Option (List (BitVec 8))
  | none => some []
  | some p => (Slots.get h p).bind fun block => cstr (block.drop 8)

end Heap

/-- `Status(int, const char *)`. -/
def make (h : Heap) (code : BitVec 32) (msg : CString) : Option (Heap × Option Nat) := do
  let sz := BitVec.ofNat 32 (msg.1.length + 8)
  let (h, res) := h.alloc sz.toNat
  let h ← h.write res 0 (word sz)
  let h ← h.write res 4 (word code)
  let h ← h.write res 8 (msg.cells.take (sz - 8).toNat)
  some (h, some res)

/-- `fromSystem`; `strerror` of the code is `msg`. -/
def fromSystem (h : Heap) (err : BitVec 32) (msg : CString) : Option (Heap × Option Nat) :=
  make h err msg

def copyState (h : Heap) : Option Nat → Option (Heap × Option Nat)
  | none => some (h, none)
  | some p => do
    let sz ← ofWord (← h.read p 0 4)
    let (h, res) := h.alloc sz.toNat
    let cells ← h.read p 0 sz.toNat
    let h ← h.write res 0 cells
    some (h, some res)

/-- The result of `vsnprintf` for a format that yields `msg`. -/
def vsnprintf (msg : CString) : Int := if msg.1.length ≤ intMax then msg.1.length else -1

/-- What `vsnprintf` writes into `n` bytes. -/
def printed (msg : CString) (n : Nat) : List Cell :=
  if n = 0 then [] else msg.cells.take (n - 1) ++ [some 0]

/-- `fromFormat`, for a format that yields `msg`. -/
def fromFormat (h : Heap) (code : BitVec 32) (msg : CString) : Option (Heap × Option Nat) := do
  if intMax < vsnprintf msg + 8 + 1 then none
  else
    let sz := BitVec.ofInt 32 (vsnprintf msg + 8 + 1)
    let (h, res) := h.alloc sz.toNat
    let h ← h.write res 0 (word sz)
    let h ← h.write res 4 (word code)
    let h ← h.write res 8 (printed msg (sz - 8).toNat)
    some (h, some res)

/-- What a program does with its `Status` objects. The first five make a new one, a temporary too. -/
inductive Op
  | default
  | make (code : BitVec 32) (msg : CString)
  | fromSystem (err : BitVec 32) (msg : CString)
  | fromFormat (code : BitVec 32) (msg : CString)
  | copy (r : Nat)
  | move (r : Nat)
  | copyAssign (i r : Nat)
  | moveAssign (i r : Nat)
  | destroy (i : Nat)

/-- The memory, and the `state` of each object that has not been destroyed. -/
structure State where
  heap : Heap := []
  objects : List (Option (Option Nat)) := []

/-- A constructor has returned. -/
def State.construct (s : State) (r : Heap × Option Nat) : State := ⟨r.1, s.objects ++ [some r.2]⟩

def step (s : State) : Op → Option State
  | .default => some (s.construct (s.heap, none))
  | .make code msg => (StatusObject.make s.heap code msg).map s.construct
  | .fromSystem err msg => (StatusObject.fromSystem s.heap err msg).map s.construct
  | .fromFormat code msg => (StatusObject.fromFormat s.heap code msg).map s.construct
  | .copy r => do
    let state ← Slots.get s.objects r
    (copyState s.heap state).map s.construct
  | .move r => do
    let state ← Slots.get s.objects r
    some (State.construct { s with objects := s.objects.set r (some none) } (s.heap, state))
  | .copyAssign i r => do
    let h ← s.heap.free (← Slots.get s.objects i)
    let (h, state) ← copyState h (← Slots.get s.objects r)
    some ⟨h, s.objects.set i (some state)⟩
  | .moveAssign i r => do
    let h ← s.heap.free (← Slots.get s.objects i)
    let state ← Slots.get s.objects r
    some ⟨h, (s.objects.set i (some state)).set r (some none)⟩
  | .destroy i => do
    let h ← s.heap.free (← Slots.get s.objects i)
    some ⟨h, s.objects.set i none⟩

end NetLibrary.StatusObject
