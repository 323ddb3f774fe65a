import NetLibrary.Theory.Amortized
import NetLibrary.Verify.Buffer.Queue

/-!
# What the growth of buffers costs

`makeRoom` copies the whole content, to the head of the block or to a new one, whenever it finds no room after
it. Over a whole run this is still linear (`copied_le_charge`): a byte that comes into a buffer pays for the copies
of four, however small the pieces are and whatever is consumed between them, and `makeRoom()` costs nothing of its
own. A block pays again where it gets another suggested size, by `setSuggestSize` or by `absorb`, and where it is
copied.
-/

namespace NetLibrary.Buffer
open LTS Function

variable {x y : Buffer} {len n : Nat} {bytes : List Cell} {ι : Type} [DecidableEq ι]

/-- The bytes that `std::copy` moves in `makeRoom(len)`: the content, in `moveHead` as in `expand`. -/
def makeRoomCost (x : Buffer) (len : Nat) : Nat := if x.e + len ≤ x.cap then 0 else x.content.length

/-- The bytes that `std::copy` moves in `makeRoom()`. -/
def makeRoom'Cost (x : Buffer) : Nat := if x.space < x.exp then x.content.length else 0

/-- The bytes that `makeRoom` and `memcpy` move in `append`. -/
def appendCost (x : Buffer) (bytes : List Cell) : Nat := x.makeRoomCost bytes.length + bytes.length

/-- The bytes of contents that `std::copy` and `memcpy` move in an operation. -/
def copied (s : ι → Buffer) : Op ι → Nat
  | .append i bytes => (s i).appendCost bytes
  | .appendValue i _ rep v => (s i).appendCost (rep v)
  | .allocRoom i bytes => (s i).makeRoomCost bytes.length
  | .makeRoom i len => (s i).makeRoomCost len
  | .makeRoom' i => (s i).makeRoom'Cost
  | .absorb i j => if i = j ∨ (s i).size = 0 then 0 else (s i).appendCost (s j).content
  | .copy _ j => (s j).content.length
  | .addSize .. | .consume .. | .clear _ | .setSuggestSize .. => 0

/-- What an operation is charged for. -/
def charge (s : ι → Buffer) : Op ι → Nat
  | .append _ bytes => 5 * bytes.length
  | .appendValue _ _ rep v => 5 * (rep v).length
  | .allocRoom _ bytes => 4 * bytes.length
  | .makeRoom _ len => 2 * len
  | .addSize _ n _ => 4 * n
  | .absorb i j =>
    if i = j then 0
    else if (s i).size = 0 then 3 * ((s i).e + (s j).e) else 5 * (s j).size
  | .copy _ j => 4 * (s j).e
  | .setSuggestSize i _ => 3 * (s i).e
  | .makeRoom' _ | .consume .. | .clear _ => 0

/-! ## The potential of a buffer -/

/-- The copies that a block of `cap` bytes, filled up to `e`, has been paid for. A block that is small beside the
suggested size has also been paid for the copies that follow the next one. -/
def paid (e cap exp : Nat) : Nat :=
  max (4 * e - 2 * cap)
    (if 4 * exp ≤ cap then 0 else if 2 * exp ≤ cap then e else if exp ≤ cap then 2 * e else 3 * e)

def potential (x : Buffer) : Nat := paid x.e x.cap x.exp

section

variable {e size cap exp : Nat}

theorem paid_zero : paid 0 cap exp = 0 := by
  unfold paid
  split_ifs <;> omega

theorem paid_le (he : e ≤ cap) : paid e cap exp ≤ 3 * e := by
  unfold paid
  split_ifs <;> omega

theorem paid_add_le : paid (e + n) cap exp ≤ paid e cap exp + 4 * n := by
  unfold paid
  split_ifs <;> omega

/-- The content is moved to the head of a block that it fills to less than a half, and `n` bytes are added. -/
theorem paid_move (hsize : size ≤ e) (hn : n ≤ len) (hfull : cap < e + len) (hsmall : size + len < cap / 2) :
    paid (size + n) cap exp + size ≤ paid e cap exp + (2 * len + 2 * n) := by
  unfold paid
  split_ifs <;> omega

/-- The content is moved to a new block of at least twice the capacity, and `n` bytes are added. -/
theorem paid_grow {cap' : Nat} (hsize : size ≤ e) (he : e ≤ cap) (hn : n ≤ len) (hfull : cap < e + len)
    (hexp : exp ≤ cap') (hcap' : 2 * cap ≤ cap') (hroom : size + len ≤ cap') :
    paid (size + n) cap' exp + size ≤ paid e cap exp + (2 * len + 2 * n) := by
  unfold paid
  split_ifs <;> omega

/-- Where less than the suggested size is free, the copy to the new block has been paid for. -/
theorem paid_grow_of_space {cap' : Nat} (hsize : size ≤ e) (he : e ≤ cap) (hspace : cap - e < exp)
    (hexp : exp ≤ cap') (hcap' : 2 * cap ≤ cap') : paid size cap' exp + size ≤ paid e cap exp := by
  unfold paid
  split_ifs <;> omega

end

/-! ## The operations pay -/

theorem potential_le (h : x.WF) : x.potential ≤ 3 * x.e := paid_le h.e_le_cap

theorem size_le_e : x.size ≤ x.e := Nat.sub_le ..

theorem potential_addSize : (x.addSize n).potential ≤ x.potential + 4 * n := paid_add_le

/-- `makeRoom(len)`, and then `addSize(n)` of what fits. -/
theorem potential_makeRoom_addSize (h : x.WF) (hn : n ≤ len) :
    ((x.makeRoom len).addSize n).potential + x.makeRoomCost len ≤ x.potential + (2 * len + 2 * n) := by
  unfold makeRoom makeRoomCost
  rw [length_content h]
  split
  case isTrue =>
    have hadd : (x.addSize n).potential ≤ x.potential + 4 * n := potential_addSize
    omega
  case isFalse hfull =>
    have hfull := Nat.not_le.mp hfull
    split
    case isTrue hsmall => exact paid_move size_le_e hn hfull hsmall
    case isFalse =>
      apply paid_grow size_le_e h.e_le_cap hn hfull
      · exact Nat.le_max_left ..
      · exact (Nat.le_max_left ..).trans (Nat.le_max_right ..)
      · exact (Nat.le_max_right ..).trans (Nat.le_max_right ..)

theorem potential_makeRoom (h : x.WF) : (x.makeRoom len).potential + x.makeRoomCost len ≤ x.potential + 2 * len :=
  potential_makeRoom_addSize (n := 0) h (Nat.zero_le _)

theorem potential_makeRoom' (h : x.WF) : x.makeRoom'.potential + x.makeRoom'Cost ≤ x.potential := by
  unfold makeRoom' makeRoom'Cost
  rw [length_content h]
  split
  case isTrue hspace =>
    apply paid_grow_of_space size_le_e h.e_le_cap hspace
    · exact Nat.le_max_left ..
    · exact (Nat.le_max_left ..).trans (Nat.le_max_right ..)
  case isFalse => exact Nat.le_refl _

theorem potential_append (h : x.WF) :
    (x.append bytes).potential + x.appendCost bytes ≤ x.potential + 5 * bytes.length := by
  have halloc := potential_makeRoom_addSize h (Nat.le_refl bytes.length)
  have hstore : (x.append bytes).potential = ((x.makeRoom bytes.length).addSize bytes.length).potential := rfl
  rw [hstore, appendCost]
  omega

theorem potential_consume : (x.consume n).potential ≤ x.potential := by
  unfold consume
  dsimp only
  split
  · exact paid_zero.trans_le (Nat.zero_le _)
  · exact Nat.le_refl _

theorem potential_copyFrom : x.copyFrom.potential = x.potential := by
  obtain ⟨-, he, hcap, hexp, -⟩ := copyFrom_fields (x := x)
  rw [potential, he, hcap, hexp, potential]

/-- `absorb` swaps the blocks, but not the suggested sizes, or it appends and clears. -/
theorem potential_absorb (hx : x.WF) (hy : y.WF) :
    (x.absorb y).1.potential + (x.absorb y).2.potential + (if x.size = 0 then 0 else x.appendCost y.content) ≤
      x.potential + y.potential + if x.size = 0 then 3 * (x.e + y.e) else 5 * y.size := by
  unfold absorb
  split
  case isTrue =>
    have hfirst : ({ y with exp := x.exp } : Buffer).potential ≤ 3 * y.e := paid_le hy.e_le_cap
    have hsecond : ({ x with exp := y.exp } : Buffer).potential ≤ 3 * x.e := paid_le hx.e_le_cap
    dsimp only
    omega
  case isFalse =>
    have happend : (x.append y.content).potential + _ ≤ _ := potential_append hx
    have hclear : y.clear.potential = 0 := paid_zero
    rw [length_content hy] at happend
    dsimp only
    omega

variable [Fintype ι]

theorem step_pays {s s' : ι → Buffer} {op : Op ι} (hwf : ∀ i, (s i).WF) (hs : step s op = some s') :
    Pays (fun s => ∑ k, (s k).potential) copied charge s op s' := by
  cases op with
  | append i bytes =>
    cases hs
    exact sum_update_le (potential_append (hwf i))
  | appendValue i T rep v =>
    cases hs
    exact sum_update_le (potential_append (hwf i))
  | allocRoom i bytes =>
    cases hs
    apply sum_update_le
    have halloc := potential_makeRoom_addSize (hwf i) (Nat.le_refl bytes.length)
    exact halloc.trans (by simp only [charge]; omega)
  | makeRoom i len =>
    cases hs
    exact sum_update_le (potential_makeRoom (hwf i))
  | makeRoom' i =>
    cases hs
    exact sum_update_le (potential_makeRoom' (hwf i))
  | addSize i n bytes =>
    simp only [step, Option.ite_none_right_eq_some, Option.some.injEq] at hs
    obtain ⟨-, rfl⟩ := hs
    exact sum_update_le potential_addSize
  | consume i n =>
    simp only [step, Option.ite_none_right_eq_some, Option.some.injEq] at hs
    obtain ⟨-, rfl⟩ := hs
    exact sum_update_le potential_consume
  | absorb i j =>
    by_cases hij : i = j
    · simp only [step, if_pos hij, Option.some.injEq] at hs
      subst hs
      simp only [Pays, copied, charge, if_pos hij, if_pos (Or.inl hij)]
      exact Nat.le_refl _
    · simp only [step, if_neg hij, Option.some.injEq] at hs
      subst hs
      simp only [Pays, copied, charge, hij, false_or]
      exact sum_update_update_le hij (potential_absorb (hwf i) (hwf j))
  | clear i =>
    cases hs
    have hclear : (s i).clear.potential = 0 := paid_zero
    exact sum_update_le (hclear.trans_le (Nat.zero_le _))
  | setSuggestSize i sz =>
    cases hs
    have hle : ((s i).setSuggestSize sz).potential ≤ 3 * (s i).e := paid_le (hwf i).e_le_cap
    exact sum_update_le (hle.trans (Nat.le_add_left ..))
  | copy i j =>
    simp only [step, Option.ite_none_left_eq_some, Option.some.injEq] at hs
    obtain ⟨-, rfl⟩ := hs
    apply sum_update_le
    have hle := potential_le (hwf j)
    have hsize : (s j).size ≤ (s j).e := size_le_e
    simp only [potential_copyFrom, copied, charge, length_content (hwf j)]
    omega

/-- **Growth is linear.** In every sequence of operations on any number of buffers, they move no more bytes of
contents than they are charged for. -/
theorem copied_le_charge {ops : List (Op ι)} {s : ι → Buffer} (h : Run (ofFun step) (fun _ => {}) ops s) :
    spent step copied (fun _ => {}) ops ≤ spent step charge (fun _ => {}) ops := by
  have hpaid := h.spent_le (I := fun s => ∀ i, (s i).WF) (fun s => ∑ k, (s k).potential)
    (fun _ => .init) fun hwf hs => ⟨wf_step hwf hs, step_pays hwf hs⟩
  have hstart : ∑ _k : ι, ({} : Buffer).potential = 0 := Finset.sum_eq_zero fun _ _ => paid_zero
  rw [hstart, Nat.zero_add] at hpaid
  exact Nat.le_of_add_left_le hpaid

theorem copied_le_charge_growAndAbsorb : spent step copied (fun _ => {}) growAndAbsorb = 8 ∧
    8 ≤ spent step charge (fun _ => {}) growAndAbsorb := by
  have hcopied : spent step copied (fun _ => {}) growAndAbsorb = 8 := by decide
  obtain ⟨s, hrun, -⟩ := runs_refine_growAndAbsorb
  have hle := copied_le_charge hrun
  rw [hcopied] at hle
  exact ⟨hcopied, hle⟩

end NetLibrary.Buffer
