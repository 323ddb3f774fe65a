import NetLibrary.Model.BufferObject
import NetLibrary.Verify.Buffer.Queue

/-!
# Assignment between buffers

`operator=` releases the block of `*this` before it looks at the buffer it is to copy. If that is another one,
`*this` becomes a copy with a block of its own. If it is `*this`, the content is gone, and `cap` is left
as if it were there.
-/

namespace NetLibrary.BufferObject
open LTS Function Buffer

/-! ## The heap -/

section
variable {H : Heap} {buf : Option Nat} {p q i : Nat} {bytes : List Cell}

@[simp] theorem length_delete : (H.delete buf).length = H.length := by
  cases buf with
  | none => rfl
  | some p => exact List.length_set

@[simp] theorem length_write : (H.write i bytes buf).length = H.length := by
  cases buf with
  | none => rfl
  | some p => exact List.length_set

theorem get_delete (h : buf ≠ some q) : Slots.get (H.delete buf) q = Slots.get H q := by
  cases buf with
  | none => rfl
  | some p => exact Slots.get_set_of_ne fun hq => h (by rw [hq])

theorem get_delete_concat {o : Option (List Cell)} : Slots.get (H.delete buf ++ [o]) H.length = o := by
  have hlen : (H.delete buf).length = H.length := length_delete
  rw [← hlen]
  exact Slots.get_length

theorem get_write (h : buf ≠ some q) : Slots.get (H.write i bytes buf) q = Slots.get H q := by
  cases buf with
  | none => rfl
  | some p => exact Slots.get_set_of_ne fun hq => h (by rw [hq])

theorem get_write_self : buf.bind (Slots.get (H.write i bytes buf)) =
    (buf.bind (Slots.get H)).map (Block.blit · i bytes) := by
  cases buf with
  | none => rfl
  | some p =>
    rw [Option.bind_some, Option.bind_some, Heap.write]
    rcases Nat.lt_or_ge p H.length with hlt | hge
    · exact Slots.get_set_self hlt
    · rw [Slots.get_eq_none hge, Slots.get_eq_none (by rwa [List.length_set])]
      rfl

end

/-! ## What a method does to its object -/

section
variable {t t' t'' : This} {len i n : Nat} {bytes : List Cell}

/-- A block that the object points to has not been released. -/
def This.Live (t : This) : Prop := ∀ p, t.obj.buf = some p → ∃ m, Slots.get t.heap p = some m

theorem This.Live.ne (hl : t.Live) : t.obj.buf ≠ some t.heap.length := by
  intro h
  obtain ⟨m, hm⟩ := hl _ h
  exact Nat.lt_irrefl _ (Slots.lt_of_get hm)

/-- All that a method does to the heap: blocks of other objects stay as they are, and the object keeps its
block, gives it up or gets a fresh one. -/
structure Local (t t' : This) : Prop where
  frame : ∀ q, t.obj.buf ≠ some q → q < t.heap.length → Slots.get t'.heap q = Slots.get t.heap q
  grow : t.heap.length ≤ t'.heap.length
  buf : t'.obj.buf = none ∨ t'.obj.buf = t.obj.buf ∨ ∃ p, t.heap.length ≤ p ∧ t'.obj.buf = some p
  live : t.Live → t'.Live

theorem Local.refl : Local t t := ⟨fun _ _ _ => rfl, Nat.le_refl _, .inr (.inl rfl), id⟩

theorem Local.trans (h : Local t t') (h' : Local t' t'') : Local t t'' where
  frame q hq hlt := by
    have hne : t'.obj.buf ≠ some q := by
      rcases h.buf with hb | hb | ⟨p, hp, hb⟩
      · rw [hb]
        exact (Option.some_ne_none q).symm
      · rwa [hb]
      · rw [hb]
        intro heq
        cases heq
        omega
    rw [h'.frame q hne (Nat.lt_of_lt_of_le hlt h.grow), h.frame q hq hlt]
  grow := Nat.le_trans h.grow h'.grow
  buf := by
    rcases h'.buf with hb | hb | ⟨p, hp, hb⟩
    · exact .inl hb
    · rw [hb]
      exact h.buf
    · exact .inr (.inr ⟨p, Nat.le_trans h.grow hp, hb⟩)
  live := fun hl => h'.live (h.live hl)

/-- Giving up the block. -/
theorem Local.release {o : Object} (ho : o.buf = none) : Local t ⟨t.heap.delete t.obj.buf, o⟩ where
  frame _ hq _ := get_delete hq
  grow := Nat.le_of_eq length_delete.symm
  buf := .inl ho
  live _ p hp := absurd (ho.symm.trans hp) (Option.some_ne_none p).symm

theorem Local.clear : Local t t.clear := .release rfl

/-- Writing to the block of the object. -/
theorem Local.write {o : Object} (ho : o.buf = t.obj.buf) : Local t ⟨t.heap.write i bytes t.obj.buf, o⟩ where
  frame _ hq _ := get_write hq
  grow := Nat.le_of_eq length_write.symm
  buf := .inr (.inl ho)
  live hl p hp := by
    obtain ⟨m, hm⟩ := hl p (ho ▸ hp)
    have hself : t.obj.buf.bind (Slots.get (t.heap.write i bytes t.obj.buf)) =
        (t.obj.buf.bind (Slots.get t.heap)).map (Block.blit · i bytes) := get_write_self
    rw [← ho, hp, Option.bind_some, Option.bind_some, hm] at hself
    exact ⟨_, ho ▸ hp ▸ hself⟩

theorem Local.expand : Local t (t.expand len) where
  frame q hq hlt := (get_delete hq).trans (Slots.get_append_of_lt hlt)
  grow := by
    simp only [This.expand, length_delete, List.length_append]
    exact Nat.le_add_right _ _
  buf := .inr (.inr ⟨_, Nat.le_refl _, rfl⟩)
  live hl p hp := by
    obtain rfl : t.heap.length = p := Option.some.inj hp
    exact ⟨_, (get_delete hl.ne).trans Slots.get_length⟩

theorem Local.makeRoom : Local t (t.makeRoom len) := by
  unfold This.makeRoom
  split
  · exact .refl
  split
  · exact .write rfl
  · exact .expand

theorem Local.makeRoom' : Local t t.makeRoom' := by
  unfold This.makeRoom'
  split
  · exact .expand
  · exact .refl

/-- A method that changes other members than `buf`. -/
theorem Local.members {o : Object} (ho : o.buf = t.obj.buf) : Local t { t with obj := o } where
  frame _ _ _ := rfl
  grow := Nat.le_refl _
  buf := .inr (.inl ho)
  live hl p hp := hl p (ho ▸ hp)

theorem Local.addSize : Local t (t.addSize n) := .members rfl

theorem Local.setSuggestSize : Local t (t.setSuggestSize n) := .members rfl

theorem Local.store : Local t (t.store i bytes) := .write rfl

theorem Local.append : Local t (t.append bytes) := Local.makeRoom.trans (Local.addSize.trans .store)

theorem Local.consume : Local t (t.consume n) := by
  unfold This.consume
  dsimp only
  split
  · exact (Local.members rfl).trans .clear
  · exact .members rfl

/-! ## What a method does to the value -/

theorem value_clear : t.clear.value = t.value.clear := rfl

theorem value_write {o : Object} (ho : o.buf = t.obj.buf) :
    (This.value ⟨t.heap.write i bytes t.obj.buf, o⟩).buf = t.value.buf.map (Block.blit · i bytes) := by
  rw [This.value, ho]
  exact get_write_self

/-- Two values with the same block and the same other members. -/
theorem value_ext {x y : Buffer} (hbuf : x.buf = y.buf) (hrest : { x with buf := none } = { y with buf := none }) :
    x = y := by
  cases x
  cases y
  cases hbuf
  cases hrest
  rfl

theorem value_moveHead : t.moveHead.value = t.value.moveHead :=
  value_ext (value_write rfl) rfl

theorem value_store : (t.store i bytes).value = t.value.store i bytes :=
  value_ext (value_write rfl) rfl

theorem value_expand (hl : t.Live) : (t.expand len).value = t.value.expand len :=
  value_ext ((get_delete hl.ne).trans Slots.get_length) rfl

theorem value_makeRoom (hl : t.Live) : (t.makeRoom len).value = t.value.makeRoom len := by
  unfold This.makeRoom Buffer.makeRoom
  by_cases hfits : t.obj.e + len ≤ t.obj.cap
  · rw [if_pos hfits, if_pos (show t.value.e + len ≤ t.value.cap from hfits)]
  · rw [if_neg hfits, if_neg (show ¬t.value.e + len ≤ t.value.cap from hfits)]
    by_cases hhalf : t.size + len < t.obj.cap / 2
    · rw [if_pos hhalf, if_pos (show t.value.size + len < t.value.cap / 2 from hhalf), value_moveHead]
    · rw [if_neg hhalf, if_neg (show ¬t.value.size + len < t.value.cap / 2 from hhalf), value_expand hl]

theorem value_makeRoom' (hl : t.Live) : t.makeRoom'.value = t.value.makeRoom' := by
  unfold This.makeRoom' Buffer.makeRoom'
  by_cases hspace : t.space < t.obj.exp
  · rw [if_pos hspace, if_pos (show t.value.space < t.value.exp from hspace), value_expand hl]
  · rw [if_neg hspace, if_neg (show ¬t.value.space < t.value.exp from hspace)]

theorem value_append (hl : t.Live) : (t.append bytes).value = t.value.append bytes :=
  calc (t.append bytes).value
    _ = ((t.makeRoom bytes.length).value.addSize bytes.length).store (t.makeRoom bytes.length).value.e bytes :=
      value_store
    _ = t.value.append bytes := by
      rw [value_makeRoom hl]
      rfl

theorem value_consume : (t.consume n).value = t.value.consume n := by
  unfold This.consume Buffer.consume
  dsimp only
  split
  case isTrue h => exact (if_pos h).symm
  case isFalse h => exact (if_neg h).symm

end

/-! ## Objects that share the heap -/

section
variable {ι : Type} {s s' : State ι} {i j k : ι} {t : This}

/-- No object points to a block that was released, and no two objects to the same one. -/
structure Sep (s : State ι) : Prop where
  live : ∀ i, (s.this i).Live
  uniq : ∀ i j p, (s.objs i).buf = some p → (s.objs j).buf = some p → i = j

theorem Sep.init : Sep ({} : State ι) where
  live _ _ hp := absurd hp (Option.some_ne_none _).symm
  uniq _ _ _ hp := absurd hp (Option.some_ne_none _).symm

variable [DecidableEq ι]

theorem objs_put_self : (s.put i t).objs i = t.obj := update_self _ _ _

theorem this_put_self : (s.put i t).this i = t := by
  rw [State.this, objs_put_self]
  rfl

theorem objs_put_of_ne (hk : k ≠ i) : (s.put i t).objs k = s.objs k := update_of_ne hk _ _

/-- The value of another object is left alone. -/
theorem value_put_of_ne (hs : Sep s) (ht : Local (s.this i) t) (hk : k ≠ i) : (s.put i t).value k = s.value k := by
  refine value_ext ?_ ?_
  · change ((s.put i t).objs k).buf.bind (Slots.get t.heap) = (s.objs k).buf.bind (Slots.get s.heap)
    rw [objs_put_of_ne hk]
    cases hbuf : (s.objs k).buf with
    | none => rfl
    | some q =>
      obtain ⟨m, hm⟩ := hs.live k q hbuf
      exact ht.frame q (fun hi => hk (hs.uniq k i q hbuf hi)) (Slots.lt_of_get hm)
  · rw [State.value, State.value, This.value, This.value, State.this, State.this, objs_put_of_ne hk]

theorem value_put (hs : Sep s) (ht : Local (s.this i) t) : (s.put i t).value = update s.value i t.value := by
  funext k
  by_cases hk : k = i
  · rw [hk, update_self, State.value, this_put_self]
  · rw [update_of_ne hk, value_put_of_ne hs ht hk]

/-- The objects remain apart when a method changes one of them. -/
theorem Sep.put (hs : Sep s) (ht : Local (s.this i) t) : Sep (s.put i t) := by
  have hother : ∀ k p, k ≠ i → (s.objs k).buf = some p → t.obj.buf ≠ some p := by
    intro k p hk hp
    obtain ⟨m, hm⟩ := hs.live k p hp
    rcases ht.buf with hb | hb | ⟨p', hp', hb⟩
    · rw [hb]
      exact (Option.some_ne_none p).symm
    · rw [hb]
      exact fun hi => hk (hs.uniq k i p hp hi)
    · rw [hb]
      intro heq
      cases heq
      exact Nat.not_lt.mpr hp' (Slots.lt_of_get hm)
  constructor
  case live =>
    intro k p hp
    by_cases hk : k = i
    · subst hk
      rw [this_put_self] at hp ⊢
      exact ht.live (hs.live k) p hp
    · have hbuf : (s.objs k).buf = some p := by rwa [← objs_put_of_ne hk]
      obtain ⟨m, hm⟩ := hs.live k p hbuf
      refine ⟨m, (ht.frame p (fun hi => hk (hs.uniq k i p hbuf hi)) (Slots.lt_of_get hm)).trans hm⟩
  case uniq =>
    intro k k' p hp hp'
    by_cases hk : k = i <;> by_cases hk' : k' = i
    · rw [hk, hk']
    · rw [objs_put_of_ne hk'] at hp'
      rw [hk, objs_put_self] at hp
      exact absurd hp (hother k' p hk' hp')
    · rw [objs_put_of_ne hk] at hp
      rw [hk', objs_put_self] at hp'
      exact absurd hp' (hother k p hk hp)
    · rw [objs_put_of_ne hk] at hp
      rw [objs_put_of_ne hk'] at hp'
      exact hs.uniq k k' p hp hp'

/-! ## Assignment -/

theorem write_concat {H : Heap} {m : List Cell} {n p : Nat} {bytes : List Cell} (hp : H.length = p) :
    (H ++ [some m]).write n bytes (some p) = H ++ [some (Block.blit m n bytes)] := by
  rw [Heap.write, ← hp, Slots.get_length, Option.map_some, List.set_append_right _ _ (Nat.le_refl _), Nat.sub_self]
  rfl

/-- What `operator=` makes of object `i`: it gives up its block, and has a copy of that of `j`. -/
def copied (s : State ι) (i j : ι) : This :=
  match (s.objs j).buf with
  | none => ⟨s.heap.delete (s.objs i).buf, s.objs j⟩
  | some _ =>
    { heap := s.heap.delete (s.objs i).buf ++
        [some (Block.blit (Buffer.newBlock (s.objs j).cap) (s.objs j).b (s.this j).content)]
      obj := { s.objs j with buf := some s.heap.length } }

omit [DecidableEq ι] in
/-- The block of another object, after `i` has given up its own and a new one has been allocated. -/
theorem value_delete_append (hs : Sep s) (hij : i ≠ j) {H : Heap} :
    This.value ⟨s.heap.delete (s.objs i).buf ++ H, s.objs j⟩ = s.value j := by
  refine value_ext ?_ rfl
  change (s.objs j).buf.bind (Slots.get (s.heap.delete (s.objs i).buf ++ H)) =
    (s.objs j).buf.bind (Slots.get s.heap)
  cases hbuf : (s.objs j).buf with
  | none => rfl
  | some q =>
    obtain ⟨m, hm⟩ := hs.live j q hbuf
    have hne : (s.objs i).buf ≠ some q := fun hi => hij (hs.uniq i j q hi hbuf)
    have hlt : q < (s.heap.delete (s.objs i).buf).length := by
      rw [length_delete]
      exact Slots.lt_of_get hm
    exact (Slots.get_append_of_lt hlt).trans (get_delete hne)

theorem assign_of_ne (hs : Sep s) (hij : i ≠ j) : s.assign i j = s.put i (copied s i j) := by
  have hj : ∀ o, update s.objs i o j = s.objs j := fun o => update_of_ne hij.symm _ _
  unfold State.assign State.copyFrom copied
  simp only [hj, update_self, update_idem]
  cases hbuf : (s.objs j).buf with
  | none => rfl
  | some q =>
    have hcontent :
        This.content ⟨s.heap.delete (s.objs i).buf ++ [some (Buffer.newBlock (s.objs j).cap)], s.objs j⟩ =
        (s.this j).content := congrArg Buffer.content (value_delete_append hs hij)
    simp only [State.put, State.this, This.store, hj, update_self, update_idem, length_delete] at hcontent ⊢
    rw [hcontent]
    exact congrArg (State.mk · _) (write_concat length_delete)

/-- An object that is assigned to itself gives up its block. -/
theorem assign_self : s.assign i i = s.put i ⟨s.heap.delete (s.objs i).buf, { s.objs i with buf := none }⟩ := by
  unfold State.assign State.copyFrom
  simp only [update_self, update_idem]
  rfl

omit [DecidableEq ι] in
theorem local_copied (s : State ι) (i j : ι) : Local (s.this i) (copied s i j) := by
  unfold copied
  cases hbuf : (s.objs j).buf with
  | none => exact .release hbuf
  | some q =>
    refine ⟨fun q hq hlt => ?_, ?_, .inr (.inr ⟨_, Nat.le_refl _, rfl⟩), fun _ p hp => ?_⟩
    · have hlt' : q < (s.heap.delete (s.objs i).buf).length := by rwa [length_delete]
      exact (Slots.get_append_of_lt hlt').trans (get_delete hq)
    · rw [List.length_append, length_delete]
      exact Nat.le_add_right _ _
    · obtain rfl : s.heap.length = p := Option.some.inj hp
      exact ⟨_, get_delete_concat⟩

omit [DecidableEq ι] in
theorem value_copied (hs : Sep s) (i j : ι) : (copied s i j).value = (s.value j).copyFrom := by
  unfold copied Buffer.copyFrom
  cases hbuf : (s.objs j).buf with
  | none =>
    have hvalue : (s.value j).buf = none := by rw [State.value, This.value, State.this, hbuf, Option.bind_none]
    rw [hvalue]
    exact value_ext (by rw [hvalue, This.value, hbuf, Option.bind_none]) rfl
  | some q =>
    obtain ⟨m, hm⟩ := hs.live j q hbuf
    have hvalue : (s.value j).buf = some m := by
      rw [State.value, This.value, State.this, hbuf]
      exact hm
    rw [hvalue]
    exact value_ext get_delete_concat rfl

/-! ## Programs -/

/-- One operation on a family of objects, where the caller keeps to the interface. -/
def step (s : State ι) : Op ι → Option (State ι)
  | .append i bytes => some (s.put i ((s.this i).append bytes))
  | .appendValue i _ rep v => some (s.put i ((s.this i).append (rep v)))
  | .allocRoom i bytes =>
    let (t, p) := (s.this i).allocRoom bytes.length
    some (s.put i (t.store p bytes))
  | .makeRoom i len => some (s.put i ((s.this i).makeRoom len))
  | .makeRoom' i => some (s.put i (s.this i).makeRoom')
  | .addSize i n bytes =>
    if bytes.length ≤ n ∧ n ≤ (s.this i).space then
      some (s.put i (((s.this i).store (s.objs i).e bytes).addSize n))
    else none
  | .consume i n => if n ≤ (s.this i).size then some (s.put i ((s.this i).consume n)) else none
  | .absorb i j => some (s.absorb i j)
  | .clear i => some (s.put i (s.this i).clear)
  | .setSuggestSize i sz => some (s.put i ((s.this i).setSuggestSize sz))
  | .copy i j => some (s.assign i j)

/-- The objects that an operation works on. -/
def works : Op ι → List ι
  | .append i _ | .appendValue i _ _ _ | .allocRoom i _ | .makeRoom i _ | .makeRoom' i | .addSize i _ _
  | .consume i _ | .clear i | .setSuggestSize i _ | .copy i _ => [i]
  | .absorb i j => [i, j]

/-- What an operation does: it changes one object, or it makes two of them exchange their blocks. -/
theorem step_cases {op : Op ι} (hs : Sep s) (h : step s op = some s') :
    (∃ i t, works op = [i] ∧ Local (s.this i) t ∧ s' = s.put i t) ∨
      ∃ i j, op = .absorb i j ∧ s' = s.absorb i j := by
  cases op with
  | append i bytes | appendValue i T rep bytes | allocRoom i bytes =>
    exact .inl ⟨i, _, rfl, .append, (Option.some.inj h).symm⟩
  | makeRoom i len => exact .inl ⟨i, _, rfl, .makeRoom, (Option.some.inj h).symm⟩
  | makeRoom' i => exact .inl ⟨i, _, rfl, .makeRoom', (Option.some.inj h).symm⟩
  | addSize i n bytes =>
    simp only [step, Option.ite_none_right_eq_some, Option.some.injEq] at h
    exact .inl ⟨i, _, rfl, Local.store.trans .addSize, h.2.symm⟩
  | consume i n =>
    simp only [step, Option.ite_none_right_eq_some, Option.some.injEq] at h
    exact .inl ⟨i, _, rfl, .consume, h.2.symm⟩
  | absorb i j => exact .inr ⟨i, j, rfl, (Option.some.inj h).symm⟩
  | clear i => exact .inl ⟨i, _, rfl, .clear, (Option.some.inj h).symm⟩
  | setSuggestSize i sz => exact .inl ⟨i, _, rfl, .setSuggestSize, (Option.some.inj h).symm⟩
  | copy i j =>
    by_cases hij : i = j
    · subst hij
      exact .inl ⟨i, _, rfl, .release rfl, (Option.some.inj h).symm.trans assign_self⟩
    · exact .inl ⟨i, _, rfl, local_copied s i j, (Option.some.inj h).symm.trans (assign_of_ne hs hij)⟩

/-- The swap of an empty object with another. -/
theorem swap_sep (hs : Sep s) (x y : Nat) : Sep
    { s with objs := update (update s.objs i { s.objs j with exp := x }) j { s.objs i with exp := y } } := by
  -- the object whose block `k` has now
  have hfrom : ∀ k, ∃ k',
      (update (update s.objs i { s.objs j with exp := x }) j { s.objs i with exp := y } k).buf =
      (s.objs k').buf ∧ (k' = if k = j then i else if k = i then j else k) := by
    intro k
    refine ⟨_, ?_, rfl⟩
    by_cases hkj : k = j
    · rw [if_pos hkj, hkj, update_self]
    · rw [if_neg hkj, update_of_ne hkj]
      by_cases hki : k = i
      · rw [if_pos hki, hki, update_self]
      · rw [if_neg hki, update_of_ne hki]
  constructor
  case live =>
    intro k p hp
    obtain ⟨k', hbuf, -⟩ := hfrom k
    exact hs.live k' p (hbuf.symm.trans hp)
  case uniq =>
    intro k l p hk hl
    obtain ⟨k', hbuf, hk'⟩ := hfrom k
    obtain ⟨l', hbuf', hl'⟩ := hfrom l
    have heq := hs.uniq k' l' p (hbuf.symm.trans hk) (hbuf'.symm.trans hl)
    rw [hk', hl'] at heq
    split at heq <;> split at heq <;> grind

theorem absorb_sep (hs : Sep s) : Sep (s.absorb i j) := by
  unfold State.absorb
  split
  · exact hs
  split
  · exact swap_sep hs _ _
  · exact (hs.put .append).put .clear

theorem value_absorb (hs : Sep s) (hij : i ≠ j) : (s.absorb i j).value =
    update (update s.value i ((s.value i).absorb (s.value j)).1) j ((s.value i).absorb (s.value j)).2 := by
  unfold State.absorb Buffer.absorb
  rw [if_neg hij]
  by_cases hsize : (s.this i).size = 0
  · rw [if_pos hsize, if_pos (show (s.value i).size = 0 from hsize)]
    funext k
    by_cases hkj : k = j
    · simp only [State.value, State.this, hkj, update_self]
      rfl
    · rw [update_of_ne hkj]
      by_cases hki : k = i
      · simp only [State.value, State.this, hki, update_of_ne hij, update_self]
        rfl
      · simp only [State.value, State.this, update_of_ne hkj, update_of_ne hki]
  · rw [if_neg hsize, if_neg (show ¬(s.value i).size = 0 from hsize)]
    have hput : Sep (s.put i ((s.this i).append (s.this j).content)) := hs.put .append
    rw [value_put hput .clear, value_put hs .append, value_append (hs.live i)]
    congr 1
    rw [value_clear]
    exact congrArg Buffer.clear (value_put_of_ne hs .append hij.symm)

theorem sep_step {op : Op ι} (hs : Sep s) (h : step s op = some s') : Sep s' := by
  rcases step_cases hs h with ⟨i, t, -, ht, rfl⟩ | ⟨i, j, -, rfl⟩
  · exact hs.put ht
  · exact absorb_sep hs

/-- An operation leaves the objects alone that it does not work on. -/
theorem value_step {op : Op ι} (hs : Sep s) (h : step s op = some s') (hk : k ∉ works op) :
    s'.value k = s.value k := by
  rcases step_cases hs h with ⟨i, t, hw, ht, rfl⟩ | ⟨i, j, rfl, rfl⟩
  · rw [hw, List.mem_singleton] at hk
    exact value_put_of_ne hs ht hk
  · simp only [works, List.mem_cons, List.not_mem_nil, or_false, not_or] at hk
    by_cases hij : i = j
    · rw [State.absorb, if_pos hij]
    · rw [value_absorb hs hij, update_of_ne hk.2, update_of_ne hk.1]

/-- Only a buffer that holds nothing can be assigned to itself. -/
def Apart : Op ι → Prop
  | .copy i j => i ≠ j
  | _ => True

instance : (op : Op ι) → Decidable (Apart op)
  | .copy i j => inferInstanceAs (Decidable (i ≠ j))
  | .append .. | .appendValue .. | .allocRoom .. | .makeRoom .. | .makeRoom' .. | .addSize .. | .consume ..
  | .absorb .. | .clear .. | .setSuggestSize .. => isTrue trivial

theorem update_value {x : Buffer} (hs : Sep s) (ht : Local (s.this i) t) (hx : t.value = x) :
    some (update s.value i x) = some (s.put i t).value := by
  rw [value_put hs ht, hx]

/-- **Objects in a heap refine buffers**: an operation on objects is the operation of Model.Buffer on their
values, but for an assignment of an object to itself. -/
theorem step_value {op : Op ι} (hs : Sep s) (h : step s op = some s') (hop : Apart op) :
    Buffer.step s.value op = some s'.value := by
  cases op with
  | append i bytes | allocRoom i bytes | appendValue i T rep v =>
    cases h
    exact update_value hs .append (value_append (hs.live i))
  | makeRoom i len =>
    cases h
    exact update_value hs .makeRoom (value_makeRoom (hs.live i))
  | makeRoom' i =>
    cases h
    exact update_value hs .makeRoom' (value_makeRoom' (hs.live i))
  | addSize i n bytes =>
    simp only [step, Option.ite_none_right_eq_some, Option.some.injEq] at h
    obtain ⟨hguard, rfl⟩ := h
    rw [Buffer.step, if_pos (show bytes.length ≤ n ∧ n ≤ (s.value i).space from hguard)]
    exact update_value hs (Local.store.trans .addSize) (congrArg (Buffer.addSize · n) value_store)
  | consume i n =>
    simp only [step, Option.ite_none_right_eq_some, Option.some.injEq] at h
    obtain ⟨hguard, rfl⟩ := h
    rw [Buffer.step, if_pos (show n ≤ (s.value i).size from hguard)]
    exact update_value hs .consume value_consume
  | absorb i j =>
    cases h
    rw [Buffer.step]
    split
    case isTrue hij => rw [State.absorb, if_pos hij]
    case isFalse hij => rw [value_absorb hs hij]
  | clear i =>
    cases h
    exact update_value hs .clear value_clear
  | setSuggestSize i sz =>
    cases h
    exact update_value hs .setSuggestSize rfl
  | copy i j =>
    cases h
    rw [Buffer.step, if_neg hop, assign_of_ne hs hop]
    exact update_value hs (local_copied s i j) (value_copied hs i j)

/-- In a program that assigns no object to itself, every object is a well-formed buffer of Model.Buffer. -/
theorem run_value {ops : List (Op ι)} (h : Run (guarded (fun _ op => Apart op) (ofFun step)) {} ops s) :
    Sep s ∧ Run (ofFun Buffer.step) (fun _ => {}) ops s.value ∧ ∀ i, (s.value i).WF := by
  have hsep : ∀ {ops s}, Run (guarded (fun _ op => Apart op) (ofFun step)) ({} : State ι) ops s → Sep s :=
    fun h => h.invariant .init fun hs hstep => sep_step hs hstep.2
  have hrun : Run (ofFun Buffer.step) (fun _ => {}) ops s.value := by
    induction h with
    | nil => exact .nil
    | snoc h hstep ih => exact ih.snoc (step_value (hsep h) hstep.2 hstep.1)
  exact ⟨hsep h, hrun, hrun.invariant (fun _ => .init) wf_step⟩

/-! ## What an assignment leaves -/

/-- After `*i = *j`: the target holds what the source held, the source holds it still, both are well formed, and
what is done to one of them later does not change the other. -/
structure Assigned (s : State ι) (i j : ι) (s' : State ι) : Prop where
  target : (s'.value i).content = (s.value j).content
  source : (s'.value j).content = (s.value j).content
  wf_target : (s'.value i).WF
  wf_source : (s'.value j).WF
  later : ∀ ops s'', Run (ofFun step) s' ops s'' → ∀ k, k = i ∨ k = j → (∀ op ∈ ops, k ∉ works op) →
    s''.value k = s'.value k

theorem value_run {ops : List (Op ι)} (hs : Sep s) (h : Run (ofFun step) s ops s')
    (hk : ∀ op ∈ ops, k ∉ works op) :
    s'.value k = s.value k := by
  induction h with
  | nil => rfl
  | snoc h hstep ih =>
    have hsep := h.invariant hs fun hs hstep => sep_step hs hstep
    rw [value_step hsep hstep (hk _ (List.mem_append_right _ (List.mem_singleton_self _))),
      ih fun op hop => hk op (List.mem_append_left _ hop)]

theorem sep_assign (hs : Sep s) (i j : ι) : Sep (s.assign i j) :=
  sep_step hs (show step s (.copy i j) = some (s.assign i j) from rfl)

theorem Assigned.of_ne (hs : Sep s) (hj : (s.value j).WF) (hij : i ≠ j) : Assigned s i j (s.assign i j) := by
  have hvalue : (s.assign i j).value = update s.value i (s.value j).copyFrom := by
    rw [assign_of_ne hs hij, value_put hs (local_copied s i j), value_copied hs]
  have hi : (s.assign i j).value i = (s.value j).copyFrom := by rw [hvalue, update_self]
  have hjj : (s.assign i j).value j = s.value j := by rw [hvalue, update_of_ne hij.symm]
  exact ⟨hi ▸ content_copyFrom hj, by rw [hjj], hi ▸ hj.copyFrom, hjj ▸ hj,
    fun ops s'' h k _ hk => value_run (sep_assign hs i j) h hk⟩

theorem value_assign_self : (s.assign i i).value i = { s.value i with buf := none } := by
  rw [assign_self, State.value, this_put_self]
  rfl

/-- A self-assignment is right only for a buffer without a block. -/
theorem assigned_self_iff (hs : Sep s) (hi : (s.value i).WF) :
    Assigned s i i (s.assign i i) ↔ (s.objs i).cap = 0 := by
  have hvalue : (s.assign i i).value i = { s.value i with buf := none } := value_assign_self
  constructor
  · intro h
    have hwf := h.wf_target
    rw [hvalue] at hwf
    exact hwf.buf_none_iff.mp rfl
  · intro hcap
    have hnone : (s.value i).buf = none := hi.buf_none_iff.mpr hcap
    have hsame : (s.assign i i).value i = s.value i := by rw [hvalue, ← hnone]
    exact ⟨by rw [hsame], by rw [hsame], hsame ▸ hi, hsame ▸ hi,
      fun ops s'' h k _ hk => value_run (sep_assign hs i i) h hk⟩

/-- **Assignment copies the value exactly if the buffers are different objects or there is no block**: for any
two buffers in a heap in which no two objects share a block. -/
theorem assign_iff {ι : Type} [DecidableEq ι] (s : State ι) (i j : ι) (hs : Sep s) (hi : (s.value i).WF)
    (hj : (s.value j).WF) : Assigned s i j (s.assign i j) ↔ i ≠ j ∨ (s.objs i).cap = 0 := by
  by_cases hij : i = j
  · subst hij
    rw [assigned_self_iff hs hi, or_iff_right (fun h => h rfl)]
  · exact iff_of_true (.of_ne hs hj hij) (.inl hij)

/-- Two buffers with a byte each. -/
def written : List (Op Bool) := [.append true [some 1], .append false [some 2]]

theorem assign_iff_written : ∃ s, Run (guarded (fun _ op => Apart op) (ofFun step)) {} written s ∧
    Assigned s true false (s.assign true false) := by
  have heval : (written.foldlM (fun s op => if Apart op then step s op else none) {}).map
      (fun s => (s.objs true).cap) = some 512 := by decide
  obtain ⟨s, hs, -⟩ := Option.map_eq_some_iff.mp heval
  have hrun := run_guarded_ofFun_iff.mpr hs
  obtain ⟨hsep, -, hwf⟩ := run_value hrun
  exact ⟨s, hrun, (assign_iff s true false hsep (hwf true) (hwf false)).mpr (.inl (by decide))⟩

/-- A buffer with a byte, assigned to itself. -/
theorem assign_self_lost : ∃ s : State Unit,
    Run (guarded (fun _ op => Apart op) (ofFun step)) {} [.append () [some 1]] s ∧
      ¬Assigned s () () (s.assign () ()) := by
  have heval : ([Op.append () [some 1]].foldlM (fun s op => if Apart op then step s op else none) {}).map
      (fun s => (s.objs ()).cap) = some 512 := by decide
  obtain ⟨s, hs, hcap⟩ := Option.map_eq_some_iff.mp heval
  have hrun := run_guarded_ofFun_iff.mpr hs
  obtain ⟨hsep, -, hwf⟩ := run_value hrun
  refine ⟨s, hrun, fun h => ?_⟩
  rw [assigned_self_iff hsep (hwf ()), hcap] at h
  cases h

end

end NetLibrary.BufferObject
