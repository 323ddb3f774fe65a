import NetLibrary.Model.Conf
import NetLibrary.Theory.Span

/-!
# Slices

`Slice` of `slice.h` and `slice.cc`: a view of the memory from `pb` up to `pe`. The memory is a
parameter, since no operation of a slice writes to it. An operation that moves the ends of the slice
returns the slice that it leaves. `isspace`, in whatever locale, and `memcmp` are parameters; of the
value of `memcmp` nothing is known but its sign.
-/

namespace NetLibrary

@[ext] structure Slice where
  pb : Nat
  pe : Nat
  le : pb ≤ pe
  deriving DecidableEq, Repr

/-- `memcmp` on two ranges of equal length, which compares them as unsigned bytes. -/
structure Memcmp where
  run : Bytes → Bytes → Int
  eq_zero_iff : ∀ {a b : Bytes}, a.length = b.length → (run a b = 0 ↔ a = b)
  neg_iff : ∀ {a b : Bytes}, a.length = b.length → (run a b < 0 ↔ a < b)

instance : Inhabited Memcmp where
  default :=
    { run := fun a b => if a = b then 0 else if a < b then -1 else 1
      eq_zero_iff := by
        intro a b _
        split
        · simp [*]
        · split <;> simp [*]
      neg_iff := by
        intro a b _
        split
        · simp [*]
        · split <;> simp [*] }

namespace Slice

open Span

def size (s : Slice) : Nat := s.pe - s.pb

def empty (s : Slice) : Bool := s.pb = s.pe

/-- `Slice(b, n)`. -/
def ofSize (b n : Nat) : Slice := ⟨b, b + n, Nat.le_add_right b n⟩

variable (mem : Nat → UInt8)

/-- `toString()`. -/
def toString (s : Slice) : Bytes := read mem s.pb s.pe

section

variable (isspace : UInt8 → Bool)

/-- `eatWord()`: the word, and the slice as it is left. -/
def eatWord (s : Slice) : Slice × Slice :=
  let b := scan isspace mem (s.pe - s.pb) s.pb
  let e := scan (fun c => !isspace c) mem (s.pe - b) b
  have hb : b ≤ s.pe := Nat.le_trans scan_le (Nat.le_of_eq (Nat.add_sub_of_le s.le))
  (⟨b, e, le_scan⟩, ⟨e, s.pe, Nat.le_trans scan_le (Nat.le_of_eq (Nat.add_sub_of_le hb))⟩)

/-- `eatWord()` again and again until it returns an empty slice. -/
def eatWords : Nat → Slice → Option (List Slice)
  | 0, _ => none
  | n + 1, s =>
    let (w, s) := s.eatWord mem isspace
    if w.empty then some [] else (eatWords n s).map (w :: ·)

def trimSpace (s : Slice) : Slice :=
  let pb := scan isspace mem (s.pe - s.pb) s.pb
  let pe := scanBack isspace mem (s.pe - pb) s.pe
  have hb : pb ≤ s.pe := Nat.le_trans scan_le (Nat.le_of_eq (Nat.add_sub_of_le s.le))
  ⟨pb, pe, Nat.le_trans (Nat.le_of_eq (Nat.sub_sub_self hb).symm) (le_scanBack (Nat.sub_le s.pe pb))⟩

end

section

variable (memcmp : Memcmp)

def compare (s rb : Slice) : Int :=
  let sz := s.size
  let rsz := rb.size
  let min_sz := if sz > rsz then rsz else sz
  let r := memcmp.run (read mem s.pb (s.pb + min_sz)) (read mem rb.pb (rb.pb + min_sz))
  if r = 0 then
    if sz > rsz then 1
    else if sz < rsz then -1
    else r
  else r

def startWith (s x : Slice) : Bool :=
  s.size ≥ x.size && memcmp.run (read mem s.pb (s.pb + x.size)) (read mem x.pb (x.pb + x.size)) = 0

def endWith (s x : Slice) : Bool :=
  s.size ≥ x.size && memcmp.run (read mem (s.pe - x.size) s.pe) (read mem x.pb (x.pb + x.size)) = 0

end

/-- The loop of `split(ch)`, with `n = pe - p2`. -/
def splitLoop (ch : UInt8) : (n p1 p2 : Nat) → p1 ≤ p2 → List Slice
  | 0, p1, p2, h => if p1 ≠ p2 then [⟨p1, p2, h⟩] else []
  | n + 1, p1, p2, h =>
    if mem p2 = ch then ⟨p1, p2, h⟩ :: splitLoop ch n (p2 + 1) (p2 + 1) (Nat.le_refl _)
    else splitLoop ch n p1 (p2 + 1) (Nat.le_succ_of_le h)

def split (s : Slice) (ch : UInt8) : List Slice := splitLoop mem ch s.size s.pb s.pb (Nat.le_refl _)

end Slice

end NetLibrary
