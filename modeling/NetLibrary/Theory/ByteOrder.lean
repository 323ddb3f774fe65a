import Mathlib.Data.List.GetD

/-!
# Byte order

A word of `8 * n` bits as `n` bytes, and the two orders in which a host may keep them in memory.
-/

/-- The order in which a host keeps the bytes of a word. -/
inductive ByteOrder
  | little
  | big
deriving DecidableEq, Repr

namespace ByteOrder

variable {w : Nat}

/-- Byte `i` of a word, counted from the least significant one. -/
def byte (v : BitVec w) (i : Nat) : BitVec 8 := v.extractLsb' (8 * i) 8

/-- The `n` low bytes of a word, the most significant one first. -/
def bigEndian : Nat → BitVec w → List (BitVec 8)
  | 0, _ => []
  | n + 1, v => byte v n :: bigEndian n v

/-- The bytes of a word in the order in which the host keeps them. -/
def image : ByteOrder → Nat → BitVec w → List (BitVec 8)
  | .little, n, v => (bigEndian n v).reverse
  | .big, n, v => bigEndian n v

/-- The word with these bytes, the most significant one first. -/
def ofBytes (w : Nat) : List (BitVec 8) → BitVec w
  | [] => 0
  | p :: ps => p.setWidth w <<< (8 * ps.length) ||| ofBytes w ps

variable {n i : Nat} {v : BitVec w} {ps : List (BitVec 8)} {o : ByteOrder}

@[simp] theorem length_bigEndian : (bigEndian n v).length = n := by
  induction n with
  | zero => rfl
  | succ n ih => rw [bigEndian, List.length_cons, ih]

@[simp] theorem length_image : (o.image n v).length = n := by
  cases o with
  | little => rw [image, List.length_reverse, length_bigEndian]
  | big => exact length_bigEndian

/-- Bit `i` of a word put together from bytes is bit `i % 8` of the byte it falls in. -/
theorem getLsbD_ofBytes : (ofBytes w ps).getLsbD i =
    (decide (i < w) && (ps.reverse.getD (i / 8) 0).getLsbD (i % 8)) := by
  induction ps with
  | nil => simp [ofBytes]
  | cons p ps ih =>
    rw [ofBytes, BitVec.getLsbD_or, BitVec.getLsbD_shiftLeft, BitVec.getLsbD_setWidth, ih,
      List.reverse_cons]
    rcases Nat.lt_trichotomy (i / 8) ps.length with hlt | heq | hgt
    · have hlow : i < 8 * ps.length := by omega
      rw [List.getD_append _ _ _ _ (by rwa [List.length_reverse])]
      simp [hlow]
    · have hsub : i - 8 * ps.length = i % 8 := by omega
      have hhigh : ¬i < 8 * ps.length := by omega
      rw [List.getD_append_right _ _ _ _ (by simp [heq]), heq, List.getD_eq_default ps.reverse]
      · by_cases hi : i < w
        · have hw : i % 8 < w := by omega
          simp [hsub, hhigh, hi, hw]
        · simp [hi]
      · simp
    · have hhigh : 8 ≤ i - 8 * ps.length := by omega
      rw [List.getD_eq_default _ _ (by simp; omega), List.getD_eq_default _ _ (by simp; omega),
        BitVec.getLsbD_of_ge p _ hhigh]
      simp

theorem byte_ofBytes (hw : 8 * ps.length ≤ w) (hi : i < ps.length) :
    byte (ofBytes w ps) i = ps.reverse.getD i 0 := by
  refine BitVec.eq_of_getLsbD_eq fun j hj => ?_
  have hlt : 8 * i + j < w := by omega
  have hdiv : (8 * i + j) / 8 = i := by omega
  have hmod : (8 * i + j) % 8 = j := by omega
  rw [byte, BitVec.getLsbD_extractLsb', getLsbD_ofBytes, hdiv, hmod]
  simp [hj, hlt]

/-- The bytes of a word put together from bytes are these bytes. -/
theorem bigEndian_ofBytes (hw : 8 * ps.length ≤ w) : bigEndian ps.length (ofBytes w ps) = ps := by
  -- the bytes still to come are the low ones
  suffices h : ∀ n, n ≤ ps.length → bigEndian n (ofBytes w ps) = ps.drop (ps.length - n) by
    rw [h ps.length (Nat.le_refl _), Nat.sub_self, List.drop_zero]
  intro n hn
  induction n with
  | zero => rw [Nat.sub_zero, List.drop_length, bigEndian]
  | succ n ih =>
    have hlt : ps.length - (n + 1) < ps.length := by omega
    have hnext : ps.length - (n + 1) + 1 = ps.length - n := by omega
    have hget : ps.reverse.getD n 0 = ps[ps.length - (n + 1)] := by
      rw [List.getD_eq_getElem _ _ (by rwa [List.length_reverse]), List.getElem_reverse]
      congr 1
      omega
    rw [bigEndian, byte_ofBytes hw hn, ih (Nat.le_of_succ_le hn), List.drop_eq_getElem_cons hlt, hget,
      hnext]

theorem getD_bigEndian (hi : i < n) : (bigEndian n v).reverse.getD i 0 = byte v i := by
  induction n with
  | zero => cases hi
  | succ n ih =>
    rw [bigEndian, List.reverse_cons]
    rcases Nat.lt_succ_iff_lt_or_eq.mp hi with hlt | rfl
    · rw [List.getD_append _ _ _ _ (by simpa using hlt), ih hlt]
    · rw [List.getD_append_right _ _ _ _ (by simp)]
      simp

/-- A word is put together from its bytes. -/
theorem ofBytes_bigEndian (hw : w = 8 * n) : ofBytes w (bigEndian n v) = v := by
  refine BitVec.eq_of_getLsbD_eq fun i hi => ?_
  have hlt : i / 8 < n := by omega
  have hmod : i % 8 < 8 := Nat.mod_lt _ (by decide)
  rw [getLsbD_ofBytes, getD_bigEndian hlt, byte, BitVec.getLsbD_extractLsb', Nat.div_add_mod]
  simp [hi, hmod]

/-- A word whose bytes, the most significant one first, are what the host keeps of `v` in memory is kept
in memory with the most significant byte of `v` first. -/
theorem image_ofBytes_image (hw : w = 8 * n) : o.image n (ofBytes w (o.image n v)) = bigEndian n v := by
  cases o with
  | little =>
    have hlen : 8 * (bigEndian n v).reverse.length ≤ w := by simp [hw]
    have hbytes := bigEndian_ofBytes hlen
    rw [List.length_reverse, length_bigEndian] at hbytes
    rw [image, image, hbytes, List.reverse_reverse]
  | big => rw [image, image, ofBytes_bigEndian hw]

/-- Reading the host's bytes as the big-endian encoding twice gives the word back. -/
theorem ofBytes_image_twice (hw : w = 8 * n) : ofBytes w (o.image n (ofBytes w (o.image n v))) = v := by
  rw [image_ofBytes_image hw, ofBytes_bigEndian hw]

end ByteOrder
