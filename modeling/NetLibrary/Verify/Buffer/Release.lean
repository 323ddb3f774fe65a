import NetLibrary.Verify.Buffer.Assign

/-!
# The blocks of buffers

A program builds buffers, copies them, works on them and destroys them. Whatever it does, and an assignment of
a buffer to itself is no exception, each block is deleted at most once, by the object whose block it is, and
when all buffers have been destroyed, every block that was allocated has been deleted.
-/

namespace NetLibrary.BufferObject
open LTS Function Buffer

/-! ## Blocks in use -/

/-- Block `p` has been allocated and not released. -/
def Heap.Used (H : Heap) (p : Nat) : Prop := ∃ m, Slots.get H p = some m

section
variable {H H' H'' : Heap} {D D' : List Nat} {buf : Option Nat} {p i : Nat} {bytes m : List Cell}

theorem Heap.Used.lt (h : H.Used p) : p < H.length := by
  obtain ⟨m, hm⟩ := h
  exact Slots.lt_of_get hm

theorem used_delete : (H.delete buf).Used p ↔ buf ≠ some p ∧ H.Used p := by
  by_cases hp : buf = some p
  · refine iff_of_false ?_ fun h => h.1 hp
    rintro ⟨m, hm⟩
    rw [hp, Heap.delete] at hm
    have hlt := Slots.lt_of_get hm
    rw [List.length_set] at hlt
    rw [Slots.get_set_self hlt] at hm
    cases hm
  · rw [Heap.Used, get_delete hp, Heap.Used, and_iff_right hp]

theorem used_concat : (H ++ [some m]).Used p ↔ H.Used p ∨ p = H.length := by
  by_cases hp : p = H.length
  · rw [hp]
    exact iff_of_true ⟨m, Slots.get_length⟩ (.inr rfl)
  · rw [Heap.Used, Slots.get_concat hp, Heap.Used, or_iff_left hp]

theorem used_write : (H.write i bytes buf).Used p ↔ H.Used p := by
  by_cases hp : buf = some p
  · have hself : buf.bind (Slots.get (H.write i bytes buf)) =
        (buf.bind (Slots.get H)).map (Block.blit · i bytes) := get_write_self
    rw [hp, Option.bind_some, Option.bind_some] at hself
    rw [hp, Heap.Used, Heap.Used, hself]
    simp only [Option.map_eq_some_iff]
    exact ⟨fun ⟨_, m, hm, _⟩ => ⟨m, hm⟩, fun ⟨m, hm⟩ => ⟨_, m, hm, rfl⟩⟩
  · rw [Heap.Used, get_write hp, Heap.Used]

/-- From the heap `H` to `H'`, the blocks in `D` have been released, each once, and no others. -/
structure Released (H H' : Heap) (D : List Nat) : Prop where
  nodup : D.Nodup
  grow : H.length ≤ H'.length
  mem : ∀ p ∈ D, H.Used p ∨ H.length ≤ p ∧ p < H'.length
  iff : ∀ p, H'.Used p ↔ p ∉ D ∧ (H.Used p ∨ H.length ≤ p ∧ p < H'.length)

theorem Released.refl : Released H H [] where
  nodup := List.nodup_nil
  grow := Nat.le_refl _
  mem _ hp := absurd hp List.not_mem_nil
  iff p := by
    rw [and_iff_right List.not_mem_nil, or_iff_left fun h => Nat.not_lt.mpr h.1 h.2]

theorem Released.lt (h : Released H H' D) (hp : p ∈ D) : p < H'.length := by
  rcases h.mem p hp with hused | hnew
  · exact Nat.lt_of_lt_of_le hused.lt h.grow
  · exact hnew.2

theorem Released.trans (h : Released H H' D) (h' : Released H' H'' D') : Released H H'' (D ++ D') where
  nodup := by
    refine List.nodup_append.mpr ⟨h.nodup, h'.nodup, fun p hp q hq heq => ?_⟩
    subst heq
    rcases h'.mem p hq with hused | hnew
    · exact ((h.iff p).mp hused).1 hp
    · exact Nat.not_lt.mpr hnew.1 (h.lt hp)
  grow := Nat.le_trans h.grow h'.grow
  mem p hp := by
    have hgrow := h.grow
    have hgrow' := h'.grow
    rcases List.mem_append.mp hp with hp | hp
    · exact (h.mem p hp).imp_right fun hnew => ⟨hnew.1, Nat.lt_of_lt_of_le hnew.2 hgrow'⟩
    · rcases h'.mem p hp with hused | hnew
      · exact ((h.iff p).mp hused).2.imp_right fun hnew => ⟨hnew.1, Nat.lt_of_lt_of_le hnew.2 hgrow'⟩
      · exact .inr ⟨Nat.le_trans hgrow hnew.1, hnew.2⟩
  iff p := by
    have hgrow := h.grow
    have hgrow' := h'.grow
    have hmem : p ∈ D → p < H'.length := h.lt
    have hlt : H.Used p → p < H.length := Heap.Used.lt
    rw [h'.iff, h.iff, List.mem_append]
    grind

theorem Released.delete (hused : ∀ p, buf = some p → H.Used p) : Released H (H.delete buf) buf.toList where
  nodup := by
    cases buf with
    | none => exact List.nodup_nil
    | some p => exact List.pairwise_singleton _ p
  grow := Nat.le_of_eq length_delete.symm
  mem p hp := .inl (hused p (Option.mem_toList.mp hp))
  iff p := by
    rw [used_delete, length_delete, Option.mem_toList, or_iff_left fun h => Nat.not_lt.mpr h.1 h.2]

theorem Released.concat : Released H (H ++ [some m]) [] where
  nodup := List.nodup_nil
  grow := by
    rw [List.length_append]
    exact Nat.le_add_right _ _
  mem _ hp := absurd hp List.not_mem_nil
  iff p := by
    rw [used_concat, and_iff_right List.not_mem_nil, List.length_append, List.length_singleton]
    exact or_congr_right (by omega)

theorem Released.write : Released H (H.write i bytes buf) [] where
  nodup := List.nodup_nil
  grow := Nat.le_of_eq length_write.symm
  mem _ hp := absurd hp List.not_mem_nil
  iff p := by
    rw [used_write, and_iff_right List.not_mem_nil, length_write,
      or_iff_left fun h => Nat.not_lt.mpr h.1 h.2]

end

/-! ## What a method deletes -/

section
variable {t t' t'' : This} {D D' : List Nat} {len i n : Nat} {bytes : List Cell}

/-- A method releases the blocks in `D`, and a block in use is that of the object or was in use
before and not that of the object. -/
structure Tidy (t t' : This) (D : List Nat) : Prop where
  released : Released t.heap t'.heap D
  used : ∀ p, t'.heap.Used p → t'.obj.buf = some p ∨ t.obj.buf ≠ some p ∧ t.heap.Used p

theorem Tidy.trans (h : Tidy t t' D) (h' : Tidy t' t'' D') : Tidy t t'' (D ++ D') where
  released := h.released.trans h'.released
  used p hp := by
    rcases h'.used p hp with hbuf | ⟨hbuf, hused⟩
    · exact .inl hbuf
    · rcases h.used p hused with hbuf' | hold
      · exact absurd hbuf' hbuf
      · exact .inr hold

theorem Tidy.members {o : Object} (ho : o.buf = t.obj.buf) : Tidy t { t with obj := o } [] where
  released := .refl
  used p hp := by
    rw [ho]
    exact (Classical.em _).imp_right fun hbuf => ⟨hbuf, hp⟩

theorem Tidy.refl : Tidy t t [] := .members rfl

theorem Tidy.write {o : Object} (ho : o.buf = t.obj.buf) : Tidy t ⟨t.heap.write i bytes t.obj.buf, o⟩ [] where
  released := .write
  used p hp := by
    rw [ho]
    exact (Classical.em _).imp_right fun hbuf => ⟨hbuf, used_write.mp hp⟩

theorem Tidy.addSize : Tidy t (t.addSize n) [] := .members rfl

theorem Tidy.store : Tidy t (t.store i bytes) [] := .write rfl

theorem Tidy.release {o : Object} (hl : t.Live) : Tidy t ⟨t.heap.delete t.obj.buf, o⟩ t.deletes where
  released := .delete hl
  used _ hp := .inr (used_delete.mp hp)

theorem Tidy.clear (hl : t.Live) : Tidy t t.clear t.deletes := .release hl

theorem Tidy.expand (hl : t.Live) : Tidy t (t.expand len) t.deletes where
  released := by
    refine Released.trans (D := []) .concat (.delete fun p hp => ?_)
    exact used_concat.mpr (.inl (hl p hp))
  used p hp := by
    obtain ⟨hbuf, hused⟩ := used_delete.mp hp
    rcases used_concat.mp hused with hold | rfl
    · exact .inr ⟨hbuf, hold⟩
    · exact .inl rfl

theorem Tidy.makeRoom (hl : t.Live) : Tidy t (t.makeRoom len) (t.makeRoomDeletes len) := by
  unfold This.makeRoom This.makeRoomDeletes
  split
  · exact .refl
  split
  · exact .write rfl
  · exact .expand hl

theorem Tidy.makeRoom' (hl : t.Live) : Tidy t t.makeRoom' t.makeRoomDeletes' := by
  unfold This.makeRoom' This.makeRoomDeletes'
  split
  · exact .expand hl
  · exact .refl

/-- A method that does nothing to the blocks. -/
theorem Tidy.then (h : Tidy t t' D) (h' : Tidy t' t'' []) : Tidy t t'' D := by
  have hboth := h.trans h'
  rwa [List.append_nil] at hboth

theorem Tidy.append (hl : t.Live) : Tidy t (t.append bytes) (t.makeRoomDeletes bytes.length) :=
  (Tidy.makeRoom hl).then (Tidy.addSize.then .store)

theorem Tidy.consume (hl : t.Live) : Tidy t (t.consume n) (t.consumeDeletes n) := by
  unfold This.consume This.consumeDeletes
  dsimp only
  split
  · exact (Tidy.members rfl).trans (.clear hl)
  · exact .members rfl

end

/-! ## What an operation deletes -/

section
variable {ι : Type} [DecidableEq ι] {s s' : State ι} {i j k : ι} {t : This} {D : List Nat} {op : Op ι}

/-- Every block in use is that of an object. -/
def Owned (s : State ι) : Prop := ∀ p, s.heap.Used p → ∃ i, (s.objs i).buf = some p

theorem Owned.put (ho : Owned s) (ht : Tidy (s.this i) t D) : Owned (s.put i t) := by
  intro p hp
  rcases ht.used p hp with hbuf | ⟨hbuf, hused⟩
  · refine ⟨i, ?_⟩
    rwa [objs_put_self]
  · obtain ⟨k, hk⟩ := ho p hused
    have hne : k ≠ i := by
      rintro rfl
      exact hbuf hk
    refine ⟨k, ?_⟩
    rwa [objs_put_of_ne hne]

/-- What an operation passes to `delete[]`. -/
def deletes (s : State ι) : Op ι → List Nat
  | .append i bytes | .allocRoom i bytes => (s.this i).makeRoomDeletes bytes.length
  | .appendValue i _ rep v => (s.this i).makeRoomDeletes (rep v).length
  | .makeRoom i len => (s.this i).makeRoomDeletes len
  | .makeRoom' i => (s.this i).makeRoomDeletes'
  | .addSize .. | .setSuggestSize .. => []
  | .consume i n => (s.this i).consumeDeletes n
  | .absorb i j => s.absorbDeletes i j
  | .clear i | .copy i _ => (s.this i).deletes

omit [DecidableEq ι] in
theorem tidy_copied (hs : Sep s) : Tidy (s.this i) (copied s i j) (s.this i).deletes := by
  have hrelease : ∀ {o}, Tidy (s.this i) ⟨s.heap.delete (s.objs i).buf, o⟩ (s.this i).deletes :=
    .release (hs.live i)
  unfold copied
  cases (s.objs j).buf with
  | none => exact hrelease
  | some q =>
    have hlen : (s.heap.delete (s.objs i).buf).length = s.heap.length := length_delete
    constructor
    case released =>
      have hboth := (hrelease (o := {})).released.trans (.concat (m := Block.blit (Buffer.newBlock (s.objs j).cap)
        (s.objs j).b (s.this j).content))
      rwa [List.append_nil] at hboth
    case used =>
      intro p hp
      rcases used_concat.mp hp with hold | rfl
      · exact .inr (used_delete.mp hold)
      · exact .inl (congrArg some hlen.symm)

/-- Two objects that exchange their blocks. -/
theorem Owned.swap {x y : Object} (ho : Owned s) (hx : x.buf = (s.objs j).buf) (hy : y.buf = (s.objs i).buf) :
    Owned { s with objs := update (update s.objs i x) j y } := by
  intro p hp
  obtain ⟨k, hk⟩ := ho p hp
  dsimp only
  by_cases hki : k = i
  · refine ⟨j, ?_⟩
    rw [update_self, hy, ← hki, hk]
  by_cases hkj : k = j
  · refine ⟨i, ?_⟩
    have hij : i ≠ j := fun hij => hki (hkj.trans hij.symm)
    rw [update_of_ne hij, update_self, hx, ← hkj, hk]
  · refine ⟨k, ?_⟩
    rw [update_of_ne hkj, update_of_ne hki, hk]

/-- What an operation deletes is what it releases, and the blocks that remain have owners. -/
def Deletes (s s' : State ι) (D : List Nat) : Prop := Released s.heap s'.heap D ∧ (Owned s → Owned s')

theorem Deletes.put (ht : Tidy (s.this i) t D) : Deletes s (s.put i t) D := ⟨ht.released, fun ho => ho.put ht⟩

theorem absorb_deletes (hs : Sep s) : Deletes s (s.absorb i j) (s.absorbDeletes i j) := by
  unfold State.absorb State.absorbDeletes
  by_cases hij : i = j
  · rw [if_pos hij, if_pos hij]
    exact ⟨.refl, id⟩
  rw [if_neg hij, if_neg hij]
  by_cases hsize : (s.this i).size = 0
  · rw [if_pos hsize, if_pos hsize]
    exact ⟨.refl, fun ho => ho.swap rfl rfl⟩
  · rw [if_neg hsize, if_neg hsize]
    have hput : Sep (s.put i ((s.this i).append (s.this j).content)) := hs.put .append
    have happend : Deletes s (s.put i ((s.this i).append (s.this j).content)) _ := .put (.append (hs.live i))
    have hclear := Deletes.put (.clear (hput.live j))
    have hsame : ((s.put i ((s.this i).append (s.this j).content)).this j).deletes = (s.this j).deletes :=
      congrArg (fun o => o.buf.toList) (objs_put_of_ne (Ne.symm hij))
    rw [hsame] at hclear
    exact ⟨happend.1.trans hclear.1, fun ho => hclear.2 (happend.2 ho)⟩

theorem step_deletes (hs : Sep s) (h : step s op = some s') : Deletes s s' (deletes s op) := by
  cases op with
  | append i bytes | appendValue i T rep bytes | allocRoom i bytes =>
    cases h
    exact .put (.append (hs.live i))
  | makeRoom i len =>
    cases h
    exact .put (.makeRoom (hs.live i))
  | makeRoom' i =>
    cases h
    exact .put (.makeRoom' (hs.live i))
  | addSize i n bytes =>
    simp only [step, Option.ite_none_right_eq_some, Option.some.injEq] at h
    obtain ⟨-, rfl⟩ := h
    exact .put (Tidy.store.then .addSize)
  | consume i n =>
    simp only [step, Option.ite_none_right_eq_some, Option.some.injEq] at h
    obtain ⟨-, rfl⟩ := h
    exact .put (.consume (hs.live i))
  | absorb i j =>
    cases h
    exact absorb_deletes hs
  | clear i =>
    cases h
    exact .put (.clear (hs.live i))
  | setSuggestSize i sz =>
    cases h
    exact .put (.members rfl)
  | copy i j =>
    cases h
    by_cases hij : i = j
    · subst hij
      rw [assign_self]
      exact .put (.release (hs.live i))
    · rw [assign_of_ne hs hij]
      exact .put (tidy_copied hs)

/-- An operation leaves the members of the objects alone that it does not work on. -/
theorem objs_step (hs : Sep s) (h : step s op = some s') (hk : k ∉ works op) : s'.objs k = s.objs k := by
  rcases step_cases hs h with ⟨i, t, hw, -, rfl⟩ | ⟨i, j, rfl, rfl⟩
  · rw [hw, List.mem_singleton] at hk
    exact objs_put_of_ne hk
  · simp only [works, List.mem_cons, List.not_mem_nil, or_false, not_or] at hk
    unfold State.absorb
    split
    · rfl
    split
    · exact (update_of_ne hk.2 _ _).trans (update_of_ne hk.1 _ _)
    · rw [objs_put_of_ne hk.2, objs_put_of_ne hk.1]

end

/-! ## Programs with constructors and destructors -/

inductive Life (ι : Type)
  | construct (i : ι)
  | constructCopy (i j : ι)
  | work (op : Op ι)
  | destruct (i : ι)

/-- The objects, those of them that are alive, and all that was passed to `delete[]` so far. -/
structure Program (ι : Type) where
  state : State ι := {}
  alive : ι → Bool := fun _ => false
  deleted : List Nat := []

section
variable {ι : Type} [DecidableEq ι]

/-- The objects that an operation needs. -/
def uses : Op ι → List ι
  | .copy i j => [i, j]
  | op => works op

/-- An object is built where there is none, and is used and destroyed while it is alive. -/
def life (s : Program ι) : Life ι → Option (Program ι)
  | .construct i =>
    if s.alive i then none
    else some { s with state := s.state.construct i, alive := update s.alive i true }
  | .constructCopy i j =>
    if s.alive j ∧ ¬s.alive i then
      some { s with state := s.state.copyFrom i j, alive := update s.alive i true }
    else none
  | .work op =>
    if ∀ i ∈ uses op, s.alive i then
      (step s.state op).map fun t => { s with state := t, deleted := s.deleted ++ deletes s.state op }
    else none
  | .destruct i =>
    if s.alive i then
      some
        { state := s.state.destruct i
          alive := update s.alive i false
          deleted := s.deleted ++ (s.state.this i).deletes }
    else none

variable {s s' : Program ι} {t : State ι} {alive : ι → Bool} {i j k : ι} {D : List Nat} {op : Op ι} {e : Life ι}

/-- Only objects that are alive have blocks, each block in use is that of one of them, and the others
have been deleted. -/
structure Kept (s : Program ι) : Prop where
  sep : Sep s.state
  owned : Owned s.state
  gone : ∀ i, s.alive i = false → (s.state.objs i).buf = none
  released : Released [] s.state.heap s.deleted

omit [DecidableEq ι] in
theorem Kept.init : Kept ({} : Program ι) where
  sep := .init
  owned _ hp := absurd hp.lt (Nat.not_lt_zero _)
  gone _ _ := rfl
  released := .refl

omit [DecidableEq ι] in
theorem mem_uses (hk : k ∈ works op) : k ∈ uses op := by
  cases op with
  | copy i j => exact List.mem_append_left [j] hk
  | _ => exact hk

/-- A copy into an object without a block is an assignment. -/
theorem copyFrom_eq {s : State ι} (hi : (s.objs i).buf = none) : s.copyFrom i j = s.assign i j := by
  have hobj : { s.objs i with buf := none } = s.objs i := by
    rw [← hi]
  rw [State.assign, hobj, update_eq_self, hi]
  rfl

/-- A method of object `i`, which may begin or end its life. -/
theorem Kept.put {t : This} (h : Kept s) (ht : Local (s.state.this i) t) (htidy : Tidy (s.state.this i) t D)
    (hother : ∀ k, k ≠ i → alive k = s.alive k) (hi : alive i = false → t.obj.buf = none) :
    Kept ⟨s.state.put i t, alive, s.deleted ++ D⟩ where
  sep := h.sep.put ht
  owned := h.owned.put htidy
  gone k hk := by
    by_cases hki : k = i
    · subst hki
      rw [objs_put_self]
      exact hi hk
    · rw [objs_put_of_ne hki]
      exact h.gone k ((hother k hki).symm.trans hk)
  released := h.released.trans htidy.released

/-- The object `i` has come to life. -/
theorem update_alive {alive : ι → Bool} {P : Prop} (hi : update alive i true i = false) : P := by
  rw [update_self] at hi
  cases hi

theorem kept_step (h : Kept s) (hstep : life s e = some s') : Kept s' := by
  cases e with
  | construct i =>
    simp only [life, Option.ite_none_left_eq_some, Option.some.injEq, Bool.not_eq_true] at hstep
    obtain ⟨halive, rfl⟩ := hstep
    have hbuf : ({} : Object).buf = (s.state.this i).obj.buf := (h.gone i halive).symm
    have hnext := h.put (.members hbuf) (.members hbuf) (fun k hk => update_of_ne hk true s.alive)
      update_alive
    rwa [List.append_nil] at hnext
  | constructCopy i j =>
    simp only [life, Option.ite_none_right_eq_some, Option.some.injEq, Bool.not_eq_true] at hstep
    obtain ⟨⟨hj, halive⟩, rfl⟩ := hstep
    have hbuf : (s.state.objs i).buf = none := h.gone i halive
    have hij : i ≠ j := by
      rintro rfl
      rw [hj] at halive
      cases halive
    have hnext := h.put (local_copied s.state i j) (tidy_copied h.sep) (fun k hk => update_of_ne hk true s.alive)
      update_alive
    have hdeletes : (s.state.this i).deletes = [] := congrArg Option.toList hbuf
    rw [hdeletes, List.append_nil, ← assign_of_ne h.sep hij, ← copyFrom_eq hbuf] at hnext
    exact hnext
  | work op =>
    simp only [life, Option.ite_none_right_eq_some, Option.map_eq_some_iff] at hstep
    obtain ⟨huses, t, hop, rfl⟩ := hstep
    obtain ⟨hreleased, howned⟩ := step_deletes h.sep hop
    refine ⟨sep_step h.sep hop, howned h.owned, fun k hk => ?_, h.released.trans hreleased⟩
    have hnot : k ∉ works op := fun hmem => absurd (huses k (mem_uses hmem)) (Bool.eq_false_iff.mp hk)
    rw [objs_step h.sep hop hnot]
    exact h.gone k hk
  | destruct i =>
    simp only [life, Option.ite_none_right_eq_some, Option.some.injEq] at hstep
    obtain ⟨-, rfl⟩ := hstep
    exact h.put (.release rfl) (.release (h.sep.live i)) (fun k hk => update_of_ne hk false s.alive) fun _ => rfl

theorem run_kept {es : List (Life ι)} (h : Run (ofFun life) {} es s) : Kept s :=
  h.invariant .init fun hk hstep => kept_step hk hstep

/-- What is known about the blocks: nothing is deleted twice, a block that has not been deleted is that of exactly
one living object, living objects have no others, and when there are none, all blocks have been deleted. -/
structure Accounted (s : Program ι) : Prop where
  nodup : s.deleted.Nodup
  owner : ∀ p < s.state.heap.length, p ∉ s.deleted → ∃! i, s.alive i = true ∧ (s.state.objs i).buf = some p
  valid : ∀ i p, s.alive i = true → (s.state.objs i).buf = some p → p < s.state.heap.length ∧ p ∉ s.deleted
  all : (∀ i, s.alive i = false) → s.deleted.Perm (List.range s.state.heap.length)

/-- **Every block is deleted once**, in every program of constructors, destructors and methods on any family of
buffers. -/
theorem deleted_once {ι : Type} [DecidableEq ι] (es : List (Life ι)) (s : Program ι)
    (h : Run (ofFun life) {} es s) : Accounted s := by
  have hkept := run_kept h
  have hused : ∀ p, s.state.heap.Used p ↔ p ∉ s.deleted ∧ p < s.state.heap.length := by
    intro p
    rw [hkept.released.iff]
    refine and_congr_right fun _ => ⟨?_, fun hlt => .inr ⟨Nat.zero_le p, hlt⟩⟩
    rintro (hnone | hlt)
    · exact absurd hnone.lt (Nat.not_lt_zero p)
    · exact hlt.2
  have howner : ∀ p < s.state.heap.length, p ∉ s.deleted →
      ∃! i, s.alive i = true ∧ (s.state.objs i).buf = some p := by
    intro p hlt hp
    obtain ⟨i, hi⟩ := hkept.owned p ((hused p).mpr ⟨hp, hlt⟩)
    have halive : s.alive i = true := by
      by_contra hdead
      rw [hkept.gone i (Bool.eq_false_iff.mpr hdead)] at hi
      cases hi
    exact ⟨i, ⟨halive, hi⟩, fun j hj => hkept.sep.uniq j i p hj.2 hi⟩
  refine ⟨hkept.released.nodup, howner, fun i p _ hi => ?_, fun hdead => ?_⟩
  · exact ((hused p).mp (hkept.sep.live i p hi)).symm
  · refine (List.perm_ext_iff_of_nodup hkept.released.nodup List.nodup_range).mpr fun p => ?_
    rw [List.mem_range]
    constructor
    · exact hkept.released.lt
    · intro hlt
      by_contra hp
      obtain ⟨i, ⟨halive, -⟩, -⟩ := howner p hlt hp
      rw [hdead i] at halive
      cases halive

/-- A buffer is copied, assigned to itself, and both are destroyed. -/
def scopes : List (Life Bool) :=
  [.construct true, .work (.append true [some 1]), .constructCopy false true, .work (.copy true true),
    .destruct true, .destruct false]

theorem deleted_once_scopes : ∃ s, Run (ofFun life) {} scopes s ∧ s.deleted = [0, 1] ∧ Accounted s := by
  have heval : (scopes.foldlM life {}).map Program.deleted = some [0, 1] := by decide
  obtain ⟨s, hs, hdeleted⟩ := Option.map_eq_some_iff.mp heval
  have hrun := run_ofFun_iff.mpr hs
  exact ⟨s, hrun, hdeleted, deleted_once scopes s hrun⟩

end

end NetLibrary.BufferObject
