import NetLibrary.Model.Port

/-!
# Byte-order conversion is right on every host

`kLittleEndian` is the code of an order and not a test of the host's, so that `htobe` puts the value
together from its bytes on every host. That is right on every host: the bytes are read in the order in
which they lie in memory.
-/

namespace NetLibrary.Port

open ByteOrder

variable {host : ByteOrder}

/-- The bytes of a word, read one by one. -/
theorem map_p {w n : Nat} (v : BitVec w) : (List.range n).map (p host n v) = host.image n v := by
  refine List.ext_getElem (by simp) fun i hi _ => ?_
  have hlt : i < (host.image n v).length := by simpa using hi
  rw [List.getElem_map, List.getElem_range, p, List.getD_eq_getElem _ _ hlt]

variable {p₀ p₁ p₂ p₃ p₄ p₅ p₆ p₇ : BitVec 8}

theorem ofBytes_two : ofBytes 16 [p₀, p₁] = (p₀.setWidth 32 <<< 8 ||| p₁.setWidth 32).setWidth 16 := by
  rw [BitVec.setWidth_or, BitVec.setWidth_shiftLeft_of_le (by decide),
    BitVec.setWidth_setWidth_of_le _ (by decide), BitVec.setWidth_setWidth_of_le _ (by decide)]
  simp [ofBytes]

theorem ofBytes_four : ofBytes 32 [p₀, p₁, p₂, p₃] =
    p₀.setWidth 32 <<< 24 ||| p₁.setWidth 32 <<< 16 ||| p₂.setWidth 32 <<< 8 ||| p₃.setWidth 32 := by
  simp [ofBytes, BitVec.or_assoc]

theorem ofBytes_eight : ofBytes 64 [p₀, p₁, p₂, p₃, p₄, p₅, p₆, p₇] =
    p₀.setWidth 64 <<< 56 ||| p₁.setWidth 64 <<< 48 ||| p₂.setWidth 64 <<< 40 |||
      p₃.setWidth 64 <<< 32 ||| p₄.setWidth 64 <<< 24 ||| p₅.setWidth 64 <<< 16 |||
      p₆.setWidth 64 <<< 8 ||| p₇.setWidth 64 := by
  simp [ofBytes, BitVec.or_assoc]

/-- What each overload of `htobe` computes. -/
class Assembles (T : Type) [Htobe T] : Prop where
  ext : ∀ {v v' : T}, Htobe.bits v = Htobe.bits v' → v = v'
  bits_htobe : ∀ (host : ByteOrder) (v : T),
    Htobe.bits (htobe host v) = ofBytes (8 * Htobe.size T) (host.image (Htobe.size T) (Htobe.bits v))

theorem toBitVec_htobe16 (v : UInt16) :
    (htobe16 host v).toBitVec = ofBytes 16 (host.image 2 v.toBitVec) := by
  rw [htobe16, if_neg (by decide), ← map_p v.toBitVec]
  exact ofBytes_two.symm

theorem toBitVec_htobe32 (v : UInt32) :
    (htobe32 host v).toBitVec = ofBytes 32 (host.image 4 v.toBitVec) := by
  rw [htobe32, if_neg (by decide), ← map_p v.toBitVec]
  exact ofBytes_four.symm

theorem toBitVec_htobe64 (v : UInt64) :
    (htobe64 host v).toBitVec = ofBytes 64 (host.image 8 v.toBitVec) := by
  rw [htobe64, if_neg (by decide), ← map_p v.toBitVec]
  exact ofBytes_eight.symm

instance : Assembles UInt16 := ⟨UInt16.toBitVec_inj.mp, fun _ => toBitVec_htobe16⟩

instance : Assembles UInt32 := ⟨UInt32.toBitVec_inj.mp, fun _ => toBitVec_htobe32⟩

instance : Assembles UInt64 := ⟨UInt64.toBitVec_inj.mp, fun _ => toBitVec_htobe64⟩

instance : Assembles Int16 := ⟨Int16.toBitVec_inj.mp, fun _ v => toBitVec_htobe16 v.toUInt16⟩

instance : Assembles Int32 := ⟨Int32.toBitVec_inj.mp, fun _ v => toBitVec_htobe32 v.toUInt32⟩

instance : Assembles Int64 := ⟨Int64.toBitVec_inj.mp, fun _ v => toBitVec_htobe64 v.toUInt64⟩

/-- What a conversion to network order and back has to do for the values of a type. -/
structure Converts (T : Type) [Htobe T] : Prop where
  bigEndian : ∀ (host : ByteOrder) (v : T),
    memory host (htobe host v) = ByteOrder.bigEndian (Htobe.size T) (Htobe.bits v)
  ntoh_hton : ∀ (host : ByteOrder) (v : T), ntoh host (hton host v) = v
  hton_ntoh : ∀ (host : ByteOrder) (v : T), hton host (ntoh host v) = v

section

variable {T : Type} [Htobe T] [Assembles T]

theorem htobe_htobe (v : T) : htobe host (htobe host v) = v := by
  apply Assembles.ext
  rw [Assembles.bits_htobe, Assembles.bits_htobe, ofBytes_image_twice rfl]

theorem Converts.of_assembles : Converts T where
  bigEndian host v := by rw [memory, Assembles.bits_htobe, image_ofBytes_image rfl]
  ntoh_hton _ := htobe_htobe
  hton_ntoh _ := htobe_htobe

end

/-- **Byte-order conversion is right at every width and on every host**: a value converted by `htobe` lies
in memory in its big-endian encoding, and `hton` and `ntoh` undo each other. -/
theorem htobe_converts : Converts UInt16 ∧ Converts UInt32 ∧ Converts UInt64 ∧
    Converts Int16 ∧ Converts Int32 ∧ Converts Int64 :=
  ⟨.of_assembles, .of_assembles, .of_assembles, .of_assembles, .of_assembles, .of_assembles⟩

end NetLibrary.Port
