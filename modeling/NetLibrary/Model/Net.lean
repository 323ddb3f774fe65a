import NetLibrary.Model.Util
import NetLibrary.Theory.ByteOrder

/-!
# Addresses

`Ip4Addr` of `net.h` and `net.cc`, on a little-endian host. A `sockaddr_in` holds its port and its address in
network byte order.
-/

namespace NetLibrary.Net

structure SockaddrIn where
  sin_family : UInt16
  sin_port : UInt16
  sin_addr : UInt32
  deriving DecidableEq, Repr

def AF_INET : UInt16 := 2

def INADDR_ANY : UInt32 := 0

/-- `ntohs`: the number of which the memory of `v` holds the big-endian encoding. -/
def ntohs (v : UInt16) : UInt16 := ⟨ByteOrder.ofBytes 16 (ByteOrder.little.image 2 v.toBitVec)⟩

def htons (v : UInt16) : UInt16 := ntohs v

structure Ip4Addr where
  m_addr : SockaddrIn
  deriving DecidableEq, Repr

namespace Ip4Addr

/-- `Ip4Addr(host, port)`. -/
def ofHost (getHostByName : Bytes → UInt32) (host : Bytes) (port : Int16) : Ip4Addr where
  m_addr :=
    { sin_family := AF_INET
      sin_port := htons port.toUInt16
      sin_addr := if host ≠ [] then getHostByName host else INADDR_ANY }

def ip (a : Ip4Addr) : Bytes :=
  let uip := a.m_addr.sin_addr
  let octet (shift : UInt32) : Bytes := Util.formatD ((uip >>> shift) &&& 0xff).toNat
  Util.format (octet 0 ++ ['.'.toUInt8] ++ octet 8 ++ ['.'.toUInt8] ++ octet 16 ++ ['.'.toUInt8] ++ octet 24)

def port (a : Ip4Addr) : Int16 := (ntohs a.m_addr.sin_port).toInt16

/-- `toString()`. A `short` is promoted to `int` for `%d`. -/
def toString (a : Ip4Addr) : Bytes :=
  Util.format (Util.cString (a.ip ++ [0]) ++ [':'.toUInt8] ++ Util.formatD a.port.toInt)

end Ip4Addr

end NetLibrary.Net
