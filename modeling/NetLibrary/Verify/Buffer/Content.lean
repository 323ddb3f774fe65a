import NetLibrary.Model.Buffer

/-!
# What each buffer operation does to the content

Every operation keeps `Buffer.WF` and has one lemma for the content it leaves, so that later files
reason about contents as lists of bytes and do not open the index arithmetic again.
-/

namespace NetLibrary.Buffer
open Block

variable {x y : Buffer} {len n p : Nat} {bytes : List Cell}

theorem WF.init : ({} : Buffer).WF := ⟨Nat.le_refl 0, Nat.le_refl 0, by simp, rfl⟩

@[simp] theorem content_init : ({} : Buffer).content = [] := rfl

theorem length_content (h : x.WF) : x.content.length = x.size := by
  rw [content, length_slice (by rw [h.length_mem]; exact h.e_le_cap), size]

theorem content_eq_nil_iff (h : x.WF) : x.content = [] ↔ x.size = 0 := by
  rw [← List.length_eq_zero_iff, length_content h]

/-- The free cells after `end()`. -/
theorem length_slice_space (h : x.WF) (hn : n ≤ x.space) :
    (slice x.mem x.e (x.e + n)).length = n := by
  have := h.e_le_cap
  rw [length_slice (by rw [h.length_mem]; simp only [space] at hn; omega)]
  omega

/-! ## Releasing the block -/

theorem WF.clear : x.clear.WF := ⟨Nat.le_refl 0, Nat.le_refl 0, by simp [Buffer.clear], rfl⟩

@[simp] theorem content_clear : x.clear.content = [] := rfl

@[simp] theorem exp_clear : x.clear.exp = x.exp := rfl

theorem WF.consume (h : x.WF) : (x.consume n).WF := by
  unfold Buffer.consume
  dsimp only
  split
  · exact .clear
  · exact ⟨by simp only [size] at *; omega, h.e_le_cap, h.buf_none_iff, h.length_mem⟩

@[simp] theorem exp_consume : (x.consume n).exp = x.exp := by
  unfold Buffer.consume
  dsimp only
  split <;> rfl

theorem content_consume (h : x.WF) :
    (x.consume n).content = x.content.drop n := by
  have hdrop : slice x.mem (x.b + n) x.e = x.content.drop n := slice_add
  unfold Buffer.consume
  dsimp only
  split
  · rename_i h0
    have hlen : x.content.length ≤ n := by
      rw [length_content h]; simp only [size] at h0 ⊢; omega
    rw [List.drop_of_length_le hlen, content_clear]
  · exact hdrop

/-! ## Growing the block -/

theorem mem_of_buf (h : x.buf = some m) : x.mem = m := by simp [mem, h]

theorem WF.moveHead (h : x.WF) : x.moveHead.WF := by
  have hb := h.b_le_e
  have he := h.e_le_cap
  refine ⟨Nat.zero_le _, ?_, by simpa [Buffer.moveHead] using h.buf_none_iff, ?_⟩
  · simp only [Buffer.moveHead]; omega
  · cases hbuf : x.buf with
    | none => simpa [Buffer.moveHead, mem, hbuf] using h.length_mem
    | some m =>
      have hm : m.length = x.cap := by rw [← h.length_mem, mem_of_buf hbuf]
      have hlen : 0 + x.content.length ≤ m.length := by
        rw [length_content h, size]; omega
      simpa [Buffer.moveHead, mem, hbuf, hm] using length_blit hlen

theorem content_moveHead (h : x.WF) : x.moveHead.content = x.content := by
  have hlen : x.e - x.b = x.content.length := (length_content h).symm
  cases hbuf : x.buf with
  | none => simp [Buffer.moveHead, content, mem, hbuf]
  | some m =>
    have hmem : x.moveHead.mem = blit m 0 x.content := by simp [Buffer.moveHead, mem, hbuf]
    change slice x.moveHead.mem 0 (x.e - x.b) = x.content
    rw [hmem, hlen, slice_blit_zero]

theorem WF.expand (h : x.WF) (hcap : 0 < max x.exp (max (2 * x.cap) (x.size + len))) :
    (x.expand len).WF := by
  have hlen : 0 + x.content.length ≤ (newBlock (max x.exp (max (2 * x.cap) (x.size + len)))).length := by
    rw [length_content h]; simp only [newBlock, List.length_replicate]; omega
  refine ⟨Nat.zero_le _, ?_, ?_, ?_⟩
  · simp only [Buffer.expand, size]; omega
  · simp only [Buffer.expand, reduceCtorEq, false_iff]; omega
  · simpa [Buffer.expand, mem, newBlock] using length_blit hlen

theorem content_expand (h : x.WF) : (x.expand len).content = x.content := by
  have hlen : x.e - x.b = x.content.length := (length_content h).symm
  change slice (blit _ 0 x.content) 0 (x.e - x.b) = x.content
  rw [hlen, slice_blit_zero]

theorem le_space_expand : len ≤ (x.expand len).space := by
  simp only [Buffer.expand, space, size]; omega

/-- `makeRoom(len)` grows the block only when it is too small, so never to a block of no bytes. -/
theorem WF.makeRoom (h : x.WF) : (x.makeRoom len).WF := by
  have := h.b_le_e
  unfold Buffer.makeRoom
  split
  · exact h
  split
  · exact h.moveHead
  · exact h.expand (by have := h.e_le_cap; simp only [size] at *; omega)

theorem content_makeRoom (h : x.WF) : (x.makeRoom len).content = x.content := by
  unfold Buffer.makeRoom
  split
  · rfl
  split
  · exact content_moveHead h
  · exact content_expand h

theorem le_space_makeRoom (h : x.WF) : len ≤ (x.makeRoom len).space := by
  have := h.b_le_e
  unfold Buffer.makeRoom
  split
  · simp only [space]; omega
  split
  · simp only [Buffer.moveHead, space, size] at *; omega
  · exact le_space_expand

@[simp] theorem exp_makeRoom : (x.makeRoom len).exp = x.exp := by
  unfold Buffer.makeRoom
  split
  · rfl
  split <;> rfl

theorem WF.makeRoom' (h : x.WF) : x.makeRoom'.WF := by
  unfold Buffer.makeRoom'
  split
  · exact h.expand (by simp only [space] at *; omega)
  · exact h

theorem content_makeRoom' (h : x.WF) : x.makeRoom'.content = x.content := by
  unfold Buffer.makeRoom'
  split
  · exact content_expand h
  · rfl

@[simp] theorem exp_makeRoom' : x.makeRoom'.exp = x.exp := by
  unfold Buffer.makeRoom'
  split <;> rfl

/-- There is room after `makeRoom()`, as long as the suggested size is not zero. -/
theorem space_makeRoom'_pos (h : x.WF) (hexp : 0 < x.exp) : 0 < x.makeRoom'.space := by
  have hb := h.b_le_e
  have he := h.e_le_cap
  unfold Buffer.makeRoom'
  split
  · simp only [Buffer.expand, space, size] at *
    omega
  · omega

/-! ## Writing bytes -/

theorem mem_store (h : x.WF) (hp : p + bytes.length ≤ x.cap) :
    (x.store p bytes).mem = blit x.mem p bytes := by
  cases hbuf : x.buf with
  | none =>
    have hcap : x.cap = 0 := h.buf_none_iff.mp hbuf
    obtain rfl : bytes = [] := List.length_eq_zero_iff.mp (by omega)
    simp [store, mem, hbuf, blit]
  | some m => simp [store, mem, hbuf]

theorem WF.store (h : x.WF) (hp : p + bytes.length ≤ x.cap) : (x.store p bytes).WF := by
  refine ⟨h.b_le_e, h.e_le_cap, by simpa [Buffer.store] using h.buf_none_iff, ?_⟩
  rw [mem_store h hp, length_blit (by rwa [h.length_mem])]
  exact h.length_mem

/-- Writing after `end()` does not touch the content. -/
theorem content_store_end (h : x.WF) (hn : bytes.length ≤ x.space) :
    (x.store x.e bytes).content = x.content := by
  have he := h.e_le_cap
  have hp : x.e + bytes.length ≤ x.cap := by simp only [space] at hn; omega
  change slice (x.store x.e bytes).mem x.b x.e = x.content
  rw [mem_store h hp, slice_blit_of_le (Nat.le_refl _) (by rwa [h.length_mem]), content]

theorem WF.addSize (h : x.WF) (hn : n ≤ x.space) : (x.addSize n).WF := by
  have hb := h.b_le_e
  have he := h.e_le_cap
  refine ⟨?_, ?_, h.buf_none_iff, h.length_mem⟩ <;> simp only [Buffer.addSize, space] at * <;> omega

/-- `addSize(n)` appends the `n` cells after `end()`, whatever they hold. -/
theorem content_addSize (h : x.WF) :
    (x.addSize n).content = x.content ++ slice x.mem x.e (x.e + n) :=
  (slice_append_slice h.b_le_e (Nat.le_add_right _ _)).symm

/-- A caller that fills the room after `end()` and then calls `addSize` has appended its bytes. -/
theorem content_store_addSize (h : x.WF) (hn : bytes.length ≤ x.space) :
    ((x.store x.e bytes).addSize bytes.length).content = x.content ++ bytes := by
  have he := h.e_le_cap
  have hp : x.e + bytes.length ≤ x.cap := by simp only [space] at hn; omega
  change slice (x.store x.e bytes).mem x.b (x.e + bytes.length) = x.content ++ bytes
  rw [mem_store h hp, slice_blit h.b_le_e (by rwa [h.length_mem]), content]

/-- If the caller has filled only the first part of the room, the rest of what `addSize` appends is
what the block held there. -/
theorem content_store_addSize_of_le (h : x.WF) (hb : bytes.length ≤ n) (hn : n ≤ x.space) :
    ∃ rest, ((x.store x.e bytes).addSize n).content = x.content ++ (bytes ++ rest) ∧
      (bytes ++ rest).length = n := by
  have he := h.e_le_cap
  have hb' : bytes.length ≤ x.space := Nat.le_trans hb hn
  have hst : (x.store x.e bytes).WF := h.store (by simp only [space] at hb'; omega)
  have hsp : slice (x.store x.e bytes).mem x.e (x.e + bytes.length) = bytes := by
    rw [mem_store h (by simp only [space] at hb'; omega),
      slice_blit (Nat.le_refl _) (by rwa [h.length_mem]), slice_self, List.nil_append]
  have hroom : slice (x.store x.e bytes).mem x.e (x.e + n) =
      bytes ++ slice (x.store x.e bytes).mem (x.e + bytes.length) (x.e + n) := by
    rw [← slice_append_slice (Nat.le_add_right x.e bytes.length) (Nat.add_le_add_left hb _), hsp]
  refine ⟨slice (x.store x.e bytes).mem (x.e + bytes.length) (x.e + n), ?_, ?_⟩
  · rw [content_addSize hst, content_store_end h hb']
    exact congrArg _ hroom
  · rw [← hroom]
    exact length_slice_space hst hn

theorem append_eq : x.append bytes =
    ((x.makeRoom bytes.length).store (x.makeRoom bytes.length).e bytes).addSize bytes.length := rfl

theorem appendValue_eq {rep : T → List Cell} {v : T} :
    appendValue rep x v = x.append (rep v) := rfl

theorem WF.append (h : x.WF) : (x.append bytes).WF := by
  have hroom : (x.makeRoom bytes.length).WF := h.makeRoom
  have hspace : bytes.length ≤ (x.makeRoom bytes.length).space := le_space_makeRoom h
  have he := hroom.e_le_cap
  rw [append_eq]
  exact (hroom.store (by simp only [space] at hspace; omega)).addSize hspace

theorem content_append (h : x.WF) : (x.append bytes).content = x.content ++ bytes := by
  rw [append_eq, content_store_addSize h.makeRoom (le_space_makeRoom h), content_makeRoom h]

@[simp] theorem exp_append : (x.append bytes).exp = x.exp := exp_makeRoom

/-! ## Copying and absorbing -/

theorem WF.setSuggestSize (h : x.WF) : (x.setSuggestSize n).WF :=
  ⟨h.b_le_e, h.e_le_cap, h.buf_none_iff, h.length_mem⟩

@[simp] theorem content_setSuggestSize : (x.setSuggestSize n).content = x.content := rfl

theorem copyFrom_mem (h : x.WF) : x.copyFrom.mem = blit (newBlock x.cap) x.b x.content := by
  cases hbuf : x.buf with
  | none =>
    have hcap : x.cap = 0 := h.buf_none_iff.mp hbuf
    simp [copyFrom, mem, hbuf, hcap, newBlock, blit, content]
  | some m => simp [copyFrom, mem, hbuf]

theorem copyFrom_fields :
    x.copyFrom.b = x.b ∧ x.copyFrom.e = x.e ∧ x.copyFrom.cap = x.cap ∧ x.copyFrom.exp = x.exp ∧
      (x.copyFrom.buf = none ↔ x.buf = none) := by
  unfold copyFrom
  split <;> simp_all

theorem WF.copyFrom (h : x.WF) : x.copyFrom.WF := by
  obtain ⟨hb, he, hcap, -, hbuf⟩ := copyFrom_fields (x := x)
  have hle := h.b_le_e
  have hle' := h.e_le_cap
  refine ⟨by rwa [hb, he], by rwa [he, hcap], by rw [hbuf, hcap]; exact h.buf_none_iff, ?_⟩
  rw [copyFrom_mem h, hcap, length_blit]
  · simp [newBlock]
  · rw [length_content h]; simp only [newBlock, List.length_replicate, size]; omega

theorem content_copyFrom (h : x.WF) : x.copyFrom.content = x.content := by
  obtain ⟨hb, he, -⟩ := copyFrom_fields (x := x)
  have hle := h.b_le_e
  have hlen : x.e = x.b + x.content.length := by rw [length_content h, size]; omega
  have hcap : x.b ≤ (newBlock x.cap).length := by
    simpa [newBlock] using Nat.le_trans hle h.e_le_cap
  rw [content, hb, he, copyFrom_mem h, hlen, slice_blit (Nat.le_refl _) hcap, slice_self,
    List.nil_append]

/-- `x.absorb(y)`: both buffers stay well formed and keep their suggested sizes, `x` gains what
`y` held, and `y` is empty. -/
theorem absorb_spec (hx : x.WF) (hy : y.WF) :
    (x.absorb y).1.WF ∧ (x.absorb y).2.WF ∧
      (x.absorb y).1.content = x.content ++ y.content ∧ (x.absorb y).2.content = [] ∧
      (x.absorb y).1.exp = x.exp ∧ (x.absorb y).2.exp = y.exp := by
  unfold absorb
  split
  · rename_i h0
    have hnil : x.content = [] := (content_eq_nil_iff hx).mpr h0
    rw [hnil, List.nil_append]
    exact ⟨hy.setSuggestSize, hx.setSuggestSize, rfl, hnil, rfl, rfl⟩
  · exact ⟨hx.append, .clear, content_append hx, content_clear, exp_append, exp_clear⟩

end NetLibrary.Buffer
