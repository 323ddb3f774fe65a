import NetLibrary.Theory.ByteOrder

/-!
# Byte-order conversion

`port::htobe` of `port.h` with its overloads, and `net::hton` and `net::ntoh` of `net.h`, which are
templates over them. The byte order of the host is a parameter.
-/

namespace NetLibrary.Port

/-- `LITTLE_ENDIAN` of `<endian.h>`: the code of one byte order, defined alike on every host. -/
def LITTLE_ENDIAN : Int := 1234

def kLittleEndian : Int := LITTLE_ENDIAN

/-- `((unsigned char *)&v)[i]`, for a word of `n` bytes. -/
def p (host : ByteOrder) (n : Nat) {w : Nat} (v : BitVec w) (i : Nat) : BitVec 8 :=
  (host.image n v).getD i 0

def htobe16 (host : ByteOrder) (v : UInt16) : UInt16 :=
  if kLittleEndian = 0 then v else
    let p := p host 2 v.toBitVec
    -- the operands of `<<` and `|` are promoted to `int`
    ⟨((p 0).setWidth 32 <<< 8 ||| (p 1).setWidth 32).setWidth 16⟩

def htobe32 (host : ByteOrder) (v : UInt32) : UInt32 :=
  if kLittleEndian = 0 then v else
    let p := p host 4 v.toBitVec
    ⟨(p 0).setWidth 32 <<< 24 ||| (p 1).setWidth 32 <<< 16 ||| (p 2).setWidth 32 <<< 8 |||
      (p 3).setWidth 32⟩

def htobe64 (host : ByteOrder) (v : UInt64) : UInt64 :=
  if kLittleEndian = 0 then v else
    let p := p host 8 v.toBitVec
    ⟨(p 0).setWidth 64 <<< 56 ||| (p 1).setWidth 64 <<< 48 ||| (p 2).setWidth 64 <<< 40 |||
      (p 3).setWidth 64 <<< 32 ||| (p 4).setWidth 64 <<< 24 ||| (p 5).setWidth 64 <<< 16 |||
      (p 6).setWidth 64 <<< 8 ||| (p 7).setWidth 64⟩

/-- The integer types that `htobe` is overloaded for, with their representation in `size` bytes. -/
class Htobe (T : Type) where
  size : Nat
  bits : T → BitVec (8 * size)
  htobe : ByteOrder → T → T

export Htobe (htobe)

instance : Htobe UInt16 := ⟨2, UInt16.toBitVec, htobe16⟩

instance : Htobe UInt32 := ⟨4, UInt32.toBitVec, htobe32⟩

instance : Htobe UInt64 := ⟨8, UInt64.toBitVec, htobe64⟩

instance : Htobe Int16 := ⟨2, Int16.toBitVec, fun host v => (htobe16 host v.toUInt16).toInt16⟩

instance : Htobe Int32 := ⟨4, Int32.toBitVec, fun host v => (htobe32 host v.toUInt32).toInt32⟩

instance : Htobe Int64 := ⟨8, Int64.toBitVec, fun host v => (htobe64 host v.toUInt64).toInt64⟩

variable {T : Type} [Htobe T]

/-- The bytes of `v` in the memory of the host. -/
def memory (host : ByteOrder) (v : T) : List (BitVec 8) := host.image (Htobe.size T) (Htobe.bits v)

def hton (host : ByteOrder) (v : T) : T := htobe host v

def ntoh (host : ByteOrder) (v : T) : T := htobe host v

example : memory .little (htobe .little (0x1234 : UInt16)) = [0x12, 0x34] := by decide

example : memory .little (hton .little (-2 : Int16)) = [0xff, 0xfe] := by decide

end NetLibrary.Port
