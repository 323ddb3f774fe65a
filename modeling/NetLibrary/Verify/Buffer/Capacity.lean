import NetLibrary.Verify.Buffer.Queue

/-!
# The capacity of a buffer and its content

`makeRoom(len)` doubles the block only when the content and the `len` bytes fill half of it, so the
capacity follows the content. `makeRoom()` doubles it whenever less than `exp` bytes are free at its end,
whether or not there is room before the content, and `absorb` and the copy constructor take over the
block of another buffer. `Modest` is what these have to find for the bound to hold.
-/

namespace NetLibrary.Buffer
open LTS Function

variable {x y : Buffer} {m exp len n : Nat} {bytes : List Cell}

/-- The bound on the capacity of a buffer that holds at most `m` bytes. -/
def limit (m exp : Nat) : Nat := 4 * (m + exp) + 4

/-! ## The operations -/

theorem cap_makeRoom_le (h : x.WF) (hlen : x.size + len ≤ m) (hcap : x.cap ≤ limit m x.exp) :
    (x.makeRoom len).cap ≤ limit m x.exp := by
  have he := h.e_le_cap
  unfold makeRoom
  split
  · exact hcap
  split
  · exact hcap
  · rename_i hfull
    have hgrow : max x.exp (max (2 * x.cap) (x.size + len)) ≤ limit m x.exp := by
      simp only [limit]
      omega
    exact hgrow

theorem cap_consume_le : (x.consume n).cap ≤ x.cap := by
  unfold consume
  dsimp only
  split
  · exact Nat.zero_le _
  · exact Nat.le_refl _

/-- `makeRoom()` stays within the bound unless it doubles a block that is larger than half of it. -/
theorem cap_makeRoom'_le_iff (hsize : x.size ≤ m) (hcap : x.cap ≤ limit m x.exp) :
    x.makeRoom'.cap ≤ limit m x.exp ↔ (x.space < x.exp → 2 * x.cap ≤ limit m x.exp) := by
  unfold makeRoom'
  split
  · rename_i hspace
    have hexp : x.exp ≤ limit m x.exp := by simp only [limit]; omega
    have hm : x.size ≤ limit m x.exp := by simp only [limit]; omega
    change max x.exp (max (2 * x.cap) (x.size + 0)) ≤ limit m x.exp ↔ _
    omega
  · rename_i hspace
    exact ⟨fun _ h => absurd h hspace, fun _ => hcap⟩

/-! ## A buffer within its bounds -/

structure Fits (m exp : Nat) (x : Buffer) : Prop where
  wf : x.WF
  size_le : x.size ≤ m
  exp_eq : x.exp = exp
  cap_le : x.cap ≤ limit m exp

theorem size_eq (h : x.WF) (hc : x.content.length = n) : x.size = n :=
  (length_content h).symm.trans hc

theorem Fits.init : Fits m exp { exp := exp } where
  wf := WF.init.setSuggestSize
  size_le := Nat.zero_le _
  exp_eq := rfl
  cap_le := Nat.zero_le _

theorem Fits.clear (h : Fits m exp x) : Fits m exp x.clear where
  wf := .clear
  size_le := Nat.zero_le _
  exp_eq := h.exp_eq
  cap_le := Nat.zero_le _

theorem Fits.makeRoom (h : Fits m exp x) (hlen : x.size + len ≤ m) : Fits m exp (x.makeRoom len) where
  wf := h.wf.makeRoom
  size_le := by
    rw [size_eq h.wf.makeRoom (congrArg _ (content_makeRoom h.wf)), length_content h.wf]
    exact h.size_le
  exp_eq := exp_makeRoom.trans h.exp_eq
  cap_le := by
    have hcap := h.cap_le
    rw [← h.exp_eq] at hcap ⊢
    exact cap_makeRoom_le h.wf hlen hcap

theorem Fits.append (h : Fits m exp x) (hlen : x.size + bytes.length ≤ m) :
    Fits m exp (x.append bytes) where
  wf := h.wf.append
  size_le := by
    rw [size_eq h.wf.append (congrArg _ (content_append h.wf)), List.length_append, length_content h.wf]
    exact hlen
  exp_eq := exp_append.trans h.exp_eq
  cap_le := (h.makeRoom hlen).cap_le

theorem Fits.makeRoom' (h : Fits m exp x) (hcap : x.space < exp → 2 * x.cap ≤ limit m exp) :
    Fits m exp x.makeRoom' where
  wf := h.wf.makeRoom'
  size_le := by
    rw [size_eq h.wf.makeRoom' (congrArg _ (content_makeRoom' h.wf)), length_content h.wf]
    exact h.size_le
  exp_eq := exp_makeRoom'.trans h.exp_eq
  cap_le := by
    obtain ⟨-, hsize, rfl, hle⟩ := h
    exact (cap_makeRoom'_le_iff hsize hle).mpr hcap

theorem Fits.addSize (h : Fits m exp x) (hb : bytes.length ≤ n) (hn : n ≤ x.space)
    (hlen : x.size + n ≤ m) : Fits m exp ((x.store x.e bytes).addSize n) where
  wf := by
    have he := h.wf.e_le_cap
    exact (h.wf.store (by simp only [space] at hn; omega)).addSize hn
  size_le := by
    have hb := h.wf.b_le_e
    simp only [Buffer.size, Buffer.addSize, store] at *
    omega
  exp_eq := h.exp_eq
  cap_le := h.cap_le

theorem Fits.consume (h : Fits m exp x) : Fits m exp (x.consume n) where
  wf := h.wf.consume
  size_le := by
    rw [size_eq h.wf.consume (congrArg _ (content_consume h.wf)), List.length_drop, length_content h.wf]
    exact Nat.le_trans (Nat.sub_le _ _) h.size_le
  exp_eq := exp_consume.trans h.exp_eq
  cap_le := Nat.le_trans cap_consume_le h.cap_le

theorem Fits.copyFrom (h : x.WF) (hsize : x.size ≤ m) (hexp : x.exp = exp) (hcap : x.cap ≤ limit m exp) :
    Fits m exp x.copyFrom := by
  obtain ⟨hb, he, hcap', hexp', -⟩ := copyFrom_fields (x := x)
  refine ⟨h.copyFrom, ?_, hexp'.trans hexp, hcap' ▸ hcap⟩
  rwa [size, he, hb]

/-! ## Runs -/

variable {ι : Type} {M exp : ι → Nat} {s s' : ι → Buffer} {op : Op ι} {ops : List (Op ι)}

/-- The callers' side: buffer `i` never holds more than `M i` bytes, no more room than that is asked
for, and its suggested size remains `exp i`. -/
def Promised (M exp : ι → Nat) (s : ι → Buffer) : Op ι → Prop
  | .append i bytes | .allocRoom i bytes => (s i).size + bytes.length ≤ M i
  | .appendValue i _ rep v => (s i).size + (rep v).length ≤ M i
  | .makeRoom i len => (s i).size + len ≤ M i
  | .addSize i n _ => (s i).size + n ≤ M i
  | .absorb i j => i ≠ j → (s i).size + (s j).size ≤ M i
  | .setSuggestSize i sz => sz = exp i
  | .copy i j => (s j).size ≤ M i ∧ exp j = exp i
  | .makeRoom' _ | .consume _ _ | .clear _ => True

/-- `makeRoom()` does not double a block past the bound, and no buffer takes over a block that is larger
than its own bound. -/
def Modest (M exp : ι → Nat) (s : ι → Buffer) : Op ι → Prop
  | .makeRoom' i => (s i).space < exp i → 2 * (s i).cap ≤ limit (M i) (exp i)
  | .absorb i j => i ≠ j → (s i).size = 0 →
    (s j).cap ≤ limit (M i) (exp i) ∧ (s i).cap ≤ limit (M j) (exp j)
  | .copy i j => (s j).cap ≤ limit (M i) (exp i)
  | _ => True

instance [DecidableEq ι] : Decidable (Promised M exp s op) := by
  cases op <;> unfold Promised <;> infer_instance

theorem Fits.absorb {i j : ι} (h : ∀ i, Fits (M i) (exp i) (s i))
    (hsize : (s i).size + (s j).size ≤ M i)
    (hcap : (s i).size = 0 → (s j).cap ≤ limit (M i) (exp i) ∧ (s i).cap ≤ limit (M j) (exp j)) :
    Fits (M i) (exp i) ((s i).absorb (s j)).1 ∧ Fits (M j) (exp j) ((s i).absorb (s j)).2 := by
  unfold Buffer.absorb
  split
  · rename_i hempty
    obtain ⟨hj, hi⟩ := hcap hempty
    constructor
    · exact ⟨(h j).wf.setSuggestSize, Nat.le_trans (Nat.le_add_left _ _) hsize, (h i).exp_eq, hj⟩
    · exact ⟨(h i).wf.setSuggestSize, hempty ▸ Nat.zero_le _, (h j).exp_eq, hi⟩
  · rw [← length_content (h j).wf] at hsize
    exact ⟨(h i).append hsize, (h j).clear⟩

variable [DecidableEq ι]

theorem Fits.update (h : ∀ i, Fits (M i) (exp i) (s i)) {i : ι} (hx : Fits (M i) (exp i) x) (k : ι) :
    Fits (M k) (exp k) (update s i x k) := by
  by_cases hk : k = i
  · subst hk
    rwa [update_self]
  · rw [update_of_ne hk]
    exact h k

/-- The bounds of all buffers survive an operation that keeps to them. -/
theorem Fits.step (h : ∀ i, Fits (M i) (exp i) (s i)) (hp : Promised M exp s op)
    (hm : Modest M exp s op) (hs : step s op = some s') (k : ι) : Fits (M k) (exp k) (s' k) := by
  cases op with
  | append i bytes | allocRoom i bytes | appendValue i T rep v =>
    cases hs
    exact Fits.update h ((h i).append hp) k
  | makeRoom i len =>
    cases hs
    exact Fits.update h ((h i).makeRoom hp) k
  | makeRoom' i =>
    cases hs
    exact Fits.update h ((h i).makeRoom' hm) k
  | addSize i n bytes =>
    simp only [Buffer.step, Option.ite_none_right_eq_some, Option.some.injEq] at hs
    obtain ⟨⟨hb, hn⟩, rfl⟩ := hs
    exact Fits.update h ((h i).addSize hb hn hp) k
  | consume i n =>
    simp only [Buffer.step, Option.ite_none_right_eq_some, Option.some.injEq] at hs
    obtain ⟨-, rfl⟩ := hs
    exact Fits.update h (h i).consume k
  | absorb i j =>
    by_cases hij : i = j
    · simp only [Buffer.step, if_pos hij, Option.some.injEq] at hs
      exact hs ▸ h k
    · simp only [Buffer.step, if_neg hij, Option.some.injEq] at hs
      subst hs
      obtain ⟨hi, hj⟩ := Fits.absorb h (hp hij) (hm hij)
      exact Fits.update (Fits.update h hi) hj k
  | clear i =>
    cases hs
    exact Fits.update h (h i).clear k
  | setSuggestSize i sz =>
    cases hs
    have hi : Fits (M i) (exp i) ((s i).setSuggestSize sz) :=
      ⟨(h i).wf.setSuggestSize, (h i).size_le, hp, (h i).cap_le⟩
    exact Fits.update h hi k
  | copy i j =>
    simp only [Buffer.step, Option.ite_none_left_eq_some, Option.some.injEq] at hs
    obtain ⟨-, rfl⟩ := hs
    exact Fits.update h (.copyFrom (h j).wf hp.1 ((h j).exp_eq.trans hp.2) hm) k

/-- Only an operation that keeps to the bounds leaves every capacity within them. -/
theorem modest_of_cap_le (h : ∀ i, Fits (M i) (exp i) (s i)) (hs : step s op = some s')
    (hcap : ∀ i, (s' i).cap ≤ limit (M i) (exp i)) : Modest M exp s op := by
  cases op with
  | makeRoom' i =>
    cases hs
    have hi := hcap i
    obtain ⟨-, hsize, hexp, hle⟩ := h i
    rw [update_self] at hi
    intro hspace
    rw [← hexp] at hi hle hspace ⊢
    exact (cap_makeRoom'_le_iff hsize hle).mp hi hspace
  | absorb i j =>
    intro hij hempty
    simp only [Buffer.step, if_neg hij, Option.some.injEq] at hs
    subst hs
    have hi := hcap i
    have hj := hcap j
    rw [update_of_ne hij, update_self] at hi
    rw [update_self] at hj
    simp only [Buffer.absorb, if_pos hempty] at hi hj
    exact ⟨hi, hj⟩
  | copy i j =>
    simp only [Buffer.step, Option.ite_none_left_eq_some, Option.some.injEq] at hs
    obtain ⟨-, rfl⟩ := hs
    have hi := hcap i
    rwa [update_self, copyFrom_fields.2.2.1] at hi
  | append | allocRoom | appendValue | makeRoom | addSize | consume | clear | setSuggestSize => trivial

/-- **The capacity follows the content** in a run in which the callers keep their promises, after every
operation, exactly if every operation of the run is `Modest`. -/
theorem cap_le_limit_iff :
    Run (fun s op s' => (∀ i, (s' i).cap ≤ limit (M i) (exp i)) ∧
        guarded (Promised M exp) (ofFun step) s op s') (fun i => { exp := exp i }) ops s ↔
      Run (guarded (Modest M exp) (guarded (Promised M exp) (ofFun step)))
        (fun i => { exp := exp i }) ops s := by
  apply run_guarded_iff_of_invariant (I := fun s => ∀ i, Fits (M i) (exp i) (s i))
  · exact fun i => .init
  · rintro s op s' h hm ⟨hp, hs⟩
    exact Fits.step h hp hm hs
  · rintro s op s' h ⟨hp, hs⟩
    constructor
    · exact modest_of_cap_le h hs
    · intro hm i
      exact (Fits.step h hp hm hs i).cap_le

/-- A caller that leaves one byte of 16 at each round, in a buffer whose suggested size is 1. -/
def leftover : List (Op Unit) :=
  [.makeRoom () 16, .addSize () 16 [], .consume () 15, .makeRoom' (), .addSize () 15 [],
    .consume () 15, .addSize () 15 [], .consume () 15, .addSize () 1 [], .consume () 1, .makeRoom' (),
    .addSize () 15 [], .consume () 15, .addSize () 15 [], .consume () 15, .addSize () 15 [],
    .consume () 15, .addSize () 15 [], .consume () 15, .addSize () 3 [], .consume () 3, .makeRoom' ()]

theorem cap_not_bounded : ∃ s, Run (guarded (Promised (fun _ => 16) fun _ => 1) (ofFun step))
    (fun _ : Unit => { exp := 1 }) leftover s ∧ ¬(s ()).cap ≤ limit 16 1 := by
  have heval : (leftover.foldlM (fun s op => if Promised (fun _ => 16) (fun _ => 1) s op then
      step s op else none) fun _ => { exp := 1 }).map (fun s => (s ()).cap) = some 128 := by decide
  obtain ⟨s, hs, hcap⟩ := Option.map_eq_some_iff.mp heval
  refine ⟨s, run_guarded_ofFun_iff.mpr hs, ?_⟩
  rw [hcap]
  decide

end NetLibrary.Buffer
