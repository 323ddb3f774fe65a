import NetLibrary.Verify.Buffer.Queue

/-!
# The room that `makeRoom()` offers

`makeRoom()` grows the block when less than `exp` bytes are free, but calls `expand(0)`: the new capacity
is the largest of `exp`, twice the old capacity and the size of the content, while `exp` bytes on top of
the content are wanted. A block that was allocated under a smaller suggested size, or taken over by
`absorb`, may be too small for that even when it is doubled.
-/

namespace NetLibrary.Buffer
open LTS Function

variable {x : Buffer} {ι : Type} [DecidableEq ι] {s s' : ι → Buffer} {op : Op ι}

/-- There is room already, or nothing to copy, or a block of twice the capacity is large enough. -/
def Roomy (x : Buffer) : Prop := x.exp ≤ x.space ∨ x.size = 0 ∨ x.exp + x.size ≤ 2 * x.cap

instance : Decidable (Roomy x) := inferInstanceAs (Decidable (_ ∨ _ ∨ _))

theorem space_expand : (x.expand 0).space = max x.exp (max (2 * x.cap) x.size) - x.size := rfl

/-- `makeRoom()` offers the suggested size exactly to a buffer that is `Roomy`. -/
theorem room_makeRoom'_iff : x.makeRoom'.exp ≤ x.makeRoom'.space ↔ Roomy x := by
  rw [exp_makeRoom', makeRoom', Roomy]
  split
  case isTrue hlt =>
    rw [space_expand]
    omega
  case isFalse hge => exact iff_of_true (Nat.not_lt.mp hge) (.inl (Nat.not_lt.mp hge))

/-- A block that is not smaller than the suggested size is large enough when it is doubled. -/
theorem roomy_of_exp_le_cap (h : x.WF) (hexp : x.exp ≤ x.cap) : Roomy x := by
  have hb := h.b_le_e
  have he := h.e_le_cap
  simp only [Roomy, space, size]
  omega

/-- What `makeRoom()` is to do: the suggested size is free after the content, and the content unchanged. -/
def Offers (s : ι → Buffer) : Op ι → (ι → Buffer) → Prop
  | .makeRoom' i, s' => (s' i).exp ≤ (s' i).space ∧ (s' i).content = (s i).content
  | _, _ => True

/-- The buffers that `makeRoom()` is called on are `Roomy`. -/
def RoomyOp (s : ι → Buffer) : Op ι → Prop
  | .makeRoom' i => Roomy (s i)
  | _ => True

theorem offers_iff (hwf : ∀ i, (s i).WF) (hs : step s op = some s') : Offers s op s' ↔ RoomyOp s op := by
  cases op with
  | makeRoom' i =>
    cases hs
    rw [Offers, RoomyOp, update_self, room_makeRoom'_iff, and_iff_left (content_makeRoom' (hwf i))]
  | append | allocRoom | appendValue | makeRoom | addSize | consume | absorb | clear | setSuggestSize | copy =>
    exact Iff.rfl

/-- **`makeRoom()` offers the suggested size exactly to the buffers that are `Roomy`**: in every state that
operations on buffers lead to, and so along every run. -/
theorem makeRoom'_offers_iff (ops : List (Op ι)) (s : ι → Buffer) :
    (Run (ofFun step) (fun _ => {}) ops s → ∀ i,
      ((s i).makeRoom'.exp ≤ (s i).makeRoom'.space ∧ (s i).makeRoom'.content = (s i).content ↔ Roomy (s i))) ∧
    (Run (fun s op s' => Offers s op s' ∧ ofFun step s op s') (fun _ => {}) ops s ↔
      Run (guarded RoomyOp (ofFun step)) (fun _ => {}) ops s) := by
  constructor
  · intro h i
    have hwf : ∀ i, (s i).WF := h.invariant (fun _ => .init) wf_step
    rw [room_makeRoom'_iff, and_iff_left (content_makeRoom' (hwf i))]
  · apply run_guarded_iff_of_invariant (I := fun s => ∀ i, (s i).WF)
    · exact fun _ => .init
    · exact fun hwf _ hs => wf_step hwf hs
    · exact fun hwf hs => offers_iff hwf hs

/-- A block of 4 bytes, all of them in use, when 8 are suggested. -/
def outgrown : List (Op Unit) :=
  [.setSuggestSize () 1, .append () [some 1, some 2, some 3, some 4], .setSuggestSize () 8]

theorem makeRoom'_short : ∃ s, Run (ofFun step) (fun _ : Unit => {}) outgrown s ∧
    ¬(s ()).makeRoom'.exp ≤ (s ()).makeRoom'.space := by
  have heval : (outgrown.foldlM step fun _ => {}).map
      (fun s => ((s ()).makeRoom'.exp, (s ()).makeRoom'.space)) = some (8, 4) := by decide
  obtain ⟨s, hs, hroom⟩ := Option.map_eq_some_iff.mp heval
  obtain ⟨hexp, hspace⟩ := Prod.mk.inj hroom
  refine ⟨s, run_ofFun_iff.mpr hs, ?_⟩
  rw [hexp, hspace]
  decide

end NetLibrary.Buffer
