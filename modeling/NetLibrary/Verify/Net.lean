import NetLibrary.Model.Net
import NetLibrary.Verify.Util

/-!
# The text of an address

`Ip4Addr::toString` prints the address octet by octet as it lies in memory, which is right. The port passes
through `short port()`, so that the upper half of the ports is printed as negative numbers.
-/

namespace NetLibrary.Net
open Decimal ByteOrder Util

/-! ## What the text is to be -/

/-- The octets of an address in the order in which they lie in memory. -/
def octets (addr : UInt32) : List Nat := (ByteOrder.little.image 4 addr.toBitVec).map BitVec.toNat

def dotted (addr : UInt32) : Bytes := ['.'.toUInt8].intercalate ((octets addr).map digits)

/-- The dotted-quad address, a colon and the port as an unsigned number. -/
def addrText (addr : UInt32) (port : UInt16) : Bytes := dotted addr ++ ':'.toUInt8 :: digits port.toNat

/-- An unsigned decimal number below a bound. -/
def number (bound : Nat) (s : Bytes) : Option Nat :=
  if s ≠ [] ∧ s.all isdigit ∧ value s < bound then some (value s) else none

/-- The address and the port of a text. -/
def parse (s : Bytes) : Option (UInt32 × UInt16) :=
  match s.splitOn ':'.toUInt8 with
  | [host, port] => do
    let os ← (host.splitOn '.'.toUInt8).mapM (number 256)
    let port ← number 65536 port
    if os.length = 4 then some (⟨ofBytes 32 (os.reverse.map (BitVec.ofNat 8))⟩, UInt16.ofNat port) else none
  | _ => none

/-- A text says exactly what an address and a port are. -/
structure Exact (text : Bytes) (addr : UInt32) (port : UInt16) : Prop where
  text_eq : text = addrText addr port
  parse_eq : parse text = some (addr, port)

section
variable {n bound : Nat} {s : Bytes} {addr : UInt32} {port : UInt16}

theorem number_digits (h : n < bound) : number bound (digits n) = some n := by
  have hall : (digits n).all isdigit = true := List.all_eq_true.mpr isdigit_of_mem_digits
  rw [number, value_digits, if_pos ⟨digits_ne_nil, hall, h⟩]

theorem octets_eq (addr : UInt32) : octets addr =
    [(byte addr.toBitVec 0).toNat, (byte addr.toBitVec 1).toNat, (byte addr.toBitVec 2).toNat,
      (byte addr.toBitVec 3).toNat] := rfl

theorem lt_of_mem_octets : ∀ o ∈ octets addr, o < 256 := by
  intro o ho
  obtain ⟨b, -, rfl⟩ := List.mem_map.mp ho
  exact b.isLt

theorem mapM_number {l : List Nat} (h : ∀ o ∈ l, o < bound) : (l.map digits).mapM (number bound) = some l := by
  induction l with
  | nil => rfl
  | cons o l ih =>
    obtain ⟨ho, hl⟩ := List.forall_mem_cons.mp h
    rw [List.map_cons, List.mapM_cons, number_digits ho, ih hl]
    rfl

/-- The octets put the address together again. -/
theorem ofBytes_octets : ofBytes 32 ((octets addr).reverse.map (BitVec.ofNat 8)) = addr.toBitVec := by
  have hbytes : (octets addr).reverse.map (BitVec.ofNat 8) = bigEndian 4 addr.toBitVec := by
    rw [octets, ← List.map_reverse, List.map_map, image, List.reverse_reverse]
    refine (List.map_congr_left fun b _ => ?_).trans (List.map_id _)
    exact (BitVec.ofNat_toNat 8 b).trans (BitVec.setWidth_eq b)
  rw [hbytes]
  exact ofBytes_bigEndian rfl

theorem mem_intercalate {c d : UInt8} {ls : List Bytes} (h : c ∈ [d].intercalate ls) :
    c = d ∨ ∃ l ∈ ls, c ∈ l := by
  induction ls with
  | nil => cases h
  | cons l ls ih =>
    cases ls with
    | nil => exact .inr ⟨l, List.mem_singleton_self l, by simpa using h⟩
    | cons l' ls =>
      rw [List.intercalate_cons_cons, List.append_assoc, List.mem_append, List.mem_append, List.mem_singleton] at h
      rcases h with h | h | h
      · exact .inr ⟨l, List.mem_cons_self, h⟩
      · exact .inl h
      · rcases ih h with h | ⟨m, hm, hc⟩
        · exact .inl h
        · exact .inr ⟨m, List.mem_cons_of_mem _ hm, hc⟩

theorem not_mem_dotted {c : UInt8} (hdot : c ≠ '.'.toUInt8) (hc : isdigit c = false) : c ∉ dotted addr := by
  intro h
  rcases mem_intercalate h with rfl | ⟨l, hl, hcl⟩
  · exact hdot rfl
  · obtain ⟨o, -, rfl⟩ := List.mem_map.mp hl
    exact not_mem_digits hc hcl

theorem parse_addrText : parse (addrText addr port) = some (addr, port) := by
  have hcolon : ':'.toUInt8 ∉ dotted addr := not_mem_dotted (by decide) rfl
  have hdots : (dotted addr).splitOn '.'.toUInt8 = (octets addr).map digits := by
    refine List.splitOn_intercalate _ (fun l hl => ?_) (by simp [octets_eq])
    obtain ⟨o, -, rfl⟩ := List.mem_map.mp hl
    exact not_mem_digits rfl
  rw [parse, addrText, List.splitOn_append_cons_self_of_not_mem hcolon,
    List.splitOn_eq_singleton (not_mem_digits rfl)]
  dsimp only
  rw [hdots, mapM_number lt_of_mem_octets, number_digits port.toNat_lt]
  simp only [Option.bind_eq_bind, Option.bind_some, ofBytes_octets, UInt16.ofNat_toNat]
  rw [if_pos (by rw [octets_eq]; rfl)]

end

/-! ## What the text is -/

/-- The octets are cut out of the address by shifts. -/
theorem toNat_octet {v shift : UInt32} {i : Nat} (hshift : shift.toNat = 8 * i) (hi : i < 4) :
    ((v >>> shift) &&& 0xff).toNat = (byte v.toBitVec i).toNat := by
  have hmask : (0xff : UInt32).toNat = 2 ^ 8 - 1 := rfl
  have hmod : shift.toNat % 32 = 8 * i := by omega
  rw [UInt32.toNat_and, UInt32.toNat_shiftRight, hmod, hmask, Nat.and_two_pow_sub_one_eq_mod, byte,
    BitVec.extractLsb'_toNat]
  rfl

theorem length_digits_le {n : Nat} (hn : n < 1000) : (digits n).length ≤ 3 := by
  rw [digits, List.length_map]
  exact (Nat.length_toDigits_le_iff (by decide) (by decide)).mpr hn

theorem length_dotted_le (addr : UInt32) : (dotted addr).length ≤ 15 := by
  have hlen : ∀ b : BitVec 8, (digits b.toNat).length ≤ 3 := by
    intro b
    have hb : b.toNat < 2 ^ 8 := b.isLt
    exact length_digits_le (by omega)
  have h0 := hlen (byte addr.toBitVec 0)
  have h1 := hlen (byte addr.toBitVec 1)
  have h2 := hlen (byte addr.toBitVec 2)
  have h3 := hlen (byte addr.toBitVec 3)
  rw [dotted, octets_eq]
  simp only [List.map_cons, List.map_nil, List.intercalate_cons_cons, List.intercalate_singleton,
    List.length_append, List.length_singleton]
  omega

theorem ip_eq (a : Ip4Addr) : a.ip = dotted a.m_addr.sin_addr := by
  have hzero : 0 ∉ dotted a.m_addr.sin_addr := not_mem_dotted (by decide) rfl
  have hlen := length_dotted_le a.m_addr.sin_addr
  have htext : dotted a.m_addr.sin_addr = digits (byte a.m_addr.sin_addr.toBitVec 0).toNat ++ ['.'.toUInt8] ++
      digits (byte a.m_addr.sin_addr.toBitVec 1).toNat ++ ['.'.toUInt8] ++
      digits (byte a.m_addr.sin_addr.toBitVec 2).toNat ++ ['.'.toUInt8] ++
      digits (byte a.m_addr.sin_addr.toBitVec 3).toNat := by
    rw [dotted, octets_eq]
    simp only [List.map_cons, List.map_nil, List.intercalate_cons_cons, List.intercalate_singleton,
      List.append_assoc]
  rw [Ip4Addr.ip]
  dsimp only
  rw [toNat_octet (i := 0) rfl (by decide), toNat_octet (i := 1) rfl (by decide),
    toNat_octet (i := 2) rfl (by decide), toNat_octet (i := 3) rfl (by decide), formatD_nat, formatD_nat,
    formatD_nat, formatD_nat, ← htext, format_eq hzero (by omega)]

/-- The port as a `short`. -/
theorem toInt_port (a : Ip4Addr) : a.port.toInt =
    if (ntohs a.m_addr.sin_port).toNat < 32768 then ((ntohs a.m_addr.sin_port).toNat : Int)
    else (ntohs a.m_addr.sin_port).toNat - 65536 := by
  rw [Ip4Addr.port]
  generalize ntohs a.m_addr.sin_port = p
  have htoInt : p.toInt16.toInt = p.toBitVec.toInt := rfl
  have hnat : p.toBitVec.toNat = p.toNat := rfl
  rw [htoInt, BitVec.toInt_eq_toNat_cond, hnat]
  have hiff : 2 * p.toNat < 2 ^ 16 ↔ p.toNat < 32768 := by omega
  simp only [hiff]
  rfl

theorem toString_eq (a : Ip4Addr) :
    a.toString = dotted a.m_addr.sin_addr ++ ':'.toUInt8 :: formatD a.port.toInt := by
  have hzero : 0 ∉ dotted a.m_addr.sin_addr := not_mem_dotted (by decide) rfl
  have hlen := length_dotted_le a.m_addr.sin_addr
  have hport : (formatD a.port.toInt).length ≤ 6 := by
    have hlt := (ntohs a.m_addr.sin_port).toNat_lt
    rw [toInt_port]
    refine length_formatD_le ?_ ?_ <;> split <;> omega
  rw [Ip4Addr.toString, ip_eq, cString_append_zero hzero, List.append_assoc, List.singleton_append]
  refine format_eq ?_ ?_
  · rw [List.mem_append, List.mem_cons, not_or, not_or]
    exact ⟨hzero, by decide, not_mem_formatD rfl (by decide)⟩
  · rw [List.length_append, List.length_cons]
    omega

/-- Only a port that is no negative `short` is printed as it is. -/
theorem exact_iff (a : Ip4Addr) :
    Exact a.toString a.m_addr.sin_addr (ntohs a.m_addr.sin_port) ↔ (ntohs a.m_addr.sin_port).toNat < 32768 := by
  have htext := toString_eq a
  rw [toInt_port] at htext
  constructor
  · rintro ⟨heq, -⟩
    by_contra hge
    rw [htext, if_neg hge, addrText] at heq
    have hdigits := List.cons.inj (List.append_cancel_left heq)
    have hlt := (ntohs a.m_addr.sin_port).toNat_lt
    rw [formatD, if_pos (by omega)] at hdigits
    exact not_mem_digits rfl (hdigits.2 ▸ List.mem_cons_self)
  · intro hlt
    have heq : a.toString = addrText a.m_addr.sin_addr (ntohs a.m_addr.sin_port) := by
      rw [htext, if_pos hlt, formatD_nat, addrText]
    exact ⟨heq, heq ▸ parse_addrText⟩

/-- What `htons` writes, `ntohs` reads. -/
theorem ntohs_htons (v : UInt16) : ntohs (htons v) = v := by
  apply UInt16.toBitVec_inj.mp
  exact ofBytes_image_twice rfl

/-- **The text of an address is exact exactly if its port is below 32768**: for an address that was given as a
`sockaddr_in`, and for one that the constructor made of a host and of 16 bits of a port. -/
theorem toString_exact_iff (getHostByName : Bytes → UInt32) :
    (∀ addr : SockaddrIn, Exact (Ip4Addr.mk addr).toString addr.sin_addr (ntohs addr.sin_port) ↔
      (ntohs addr.sin_port).toNat < 32768) ∧
    ∀ (host : Bytes) (port : Int16),
      Exact (Ip4Addr.ofHost getHostByName host port).toString
        (if host ≠ [] then getHostByName host else INADDR_ANY) port.toUInt16 ↔ port.toUInt16.toNat < 32768 := by
  refine ⟨fun addr => exact_iff ⟨addr⟩, fun host port => ?_⟩
  have hport : ntohs (Ip4Addr.ofHost getHostByName host port).m_addr.sin_port = port.toUInt16 := ntohs_htons _
  have hiff := exact_iff (Ip4Addr.ofHost getHostByName host port)
  rwa [hport] at hiff

/-- The port 65535 of any address. -/
theorem toString_negative : ¬Exact (Ip4Addr.mk ⟨AF_INET, 0xffff, 0⟩).toString 0 0xffff := by
  have hport : ntohs 0xffff = 0xffff := by decide
  intro h
  have hlt := (exact_iff ⟨⟨AF_INET, 0xffff, 0⟩⟩).mp (hport.symm ▸ h)
  exact absurd hlt (by decide)

end NetLibrary.Net
