import NetLibrary.Model.Status
import NetLibrary.Theory.Run

/-!
# What a `Status` keeps

`given` says which value each object has been given last. The invariant of the program is that every
object has a block of its own with that value in it, NUL included, or no block for the value of `Status()`.
`fromFormat` makes such a block and the copies and moves keep them, but `Status(int, const char *)` leaves
out the NUL, and an object that is copied to itself frees its block before it reads it (`keepsValues_iff`).
-/

namespace NetLibrary.StatusObject
open LTS

variable {h h' : Heap} {s s' : State} {op : Op} {ops : List Op} {code sz : BitVec 32} {msg : CString}
  {cells block : List Cell} {i j n p : Nat} {state : Option Nat}

structure Value where
  code : BitVec 32
  msg : CString

/-- The value of `Status()`, and of an object that has been moved from. -/
def Value.ok : Value := ⟨0, ⟨[], List.not_mem_nil⟩⟩

/-- The values that the objects have been given last. Only an object that exists can be used. -/
def given (vs : List (Option Value)) : Op → Option (List (Option Value))
  | .default => some (vs ++ [some .ok])
  | .make code msg | .fromSystem code msg | .fromFormat code msg => some (vs ++ [some ⟨code, msg⟩])
  | .copy r => do
    let v ← Slots.get vs r
    some (vs ++ [some v])
  | .move r => do
    let v ← Slots.get vs r
    some (vs.set r (some .ok) ++ [some v])
  | .copyAssign i r => do
    let _ ← Slots.get vs i
    let v ← Slots.get vs r
    some (vs.set i (some v))
  | .moveAssign i r => do
    let _ ← Slots.get vs i
    let v ← Slots.get vs r
    some ((vs.set i (some v)).set r (some .ok))
  | .destroy i => do
    let _ ← Slots.get vs i
    some (vs.set i none)

variable {v : Value} {vs vs' : List (Option Value)}

/-! ## Blocks -/

theorem ofWord_word {w : BitVec 32} : ofWord (word w) = some w := by
  simp only [word, ofWord, Option.some.injEq]
  ext i hi
  simp only [BitVec.getElem_append, BitVec.getElem_extractLsb']
  grind

/-- Reading goes on behind characters that are not NUL. -/
theorem cstr_append {bs : List (BitVec 8)} (h : 0 ∉ bs) :
    cstr (bs.map some ++ cells) = (cstr cells).map (bs ++ ·) := by
  induction bs with
  | nil => simp
  | cons b bs ih =>
    rw [List.mem_cons, not_or] at h
    rw [List.map_cons, List.cons_append, cstr, if_neg (Ne.symm h.1), ih h.2, Option.map_map]
    rfl

theorem cstr_cells : cstr (msg.cells ++ some 0 :: cells) = some msg.1 := by
  rw [CString.cells, cstr_append msg.2, cstr, if_pos rfl, Option.map_some, List.append_nil]

/-- Without a NUL it runs out of the block, or into cells that nobody has written. -/
theorem cstr_take : cstr (msg.cells.take i ++ List.replicate n none) = none := by
  have htake : 0 ∉ msg.1.take i := fun hmem => msg.2 (List.mem_of_mem_take hmem)
  have hrest : cstr (List.replicate n none) = none := by cases n <;> rfl
  rw [CString.cells, ← List.map_take, cstr_append htake, hrest, Option.map_none]

/-- Writing goes on behind the cells that have been written. -/
theorem blit_replicate (written cells : List Cell) (n : Nat) :
    Block.blit (written ++ List.replicate n none) written.length cells =
      written ++ cells ++ List.replicate (n - cells.length) none := by
  rw [Block.blit, List.take_left, List.drop_append]
  simp

theorem write_last : Heap.write (h ++ [some block]) h.length i cells =
    if i + cells.length ≤ block.length then some (h ++ [some (Block.blit block i cells)]) else none := by
  rw [Heap.write, Slots.get_length, Option.bind_some, List.set_append_right _ _ (Nat.le_refl _),
    Nat.sub_self]
  rfl

/-- A new block after the size, the code and these cells of the text have been written. -/
def filled (n : Nat) (sz code : BitVec 32) (cells : List Cell) : List Cell :=
  word sz ++ word code ++ cells ++ List.replicate (n - (8 + cells.length)) none

/-- The size, the code and the text fit into a block or are not written. -/
theorem write_alloc (h : Heap) (n : Nat) (sz code : BitVec 32) (cells : List Cell) :
    (do
      let h₁ ← (h.alloc n).1.write h.length 0 (word sz)
      let h₂ ← h₁.write h.length 4 (word code)
      let h₃ ← h₂.write h.length 8 cells
      some (h₃, some h.length)) =
    if 8 + cells.length ≤ n then some (h ++ [some (filled n sz code cells)], some h.length) else none := by
  have hsize : Block.blit (List.replicate n none) 0 (word sz) = word sz ++ List.replicate (n - 4) none :=
    blit_replicate [] (word sz) n
  have hcode : Block.blit (word sz ++ List.replicate (n - 4) none) 4 (word code) =
      word sz ++ word code ++ List.replicate (n - 4 - 4) none := blit_replicate (word sz) (word code) (n - 4)
  have htext : Block.blit (word sz ++ word code ++ List.replicate (n - 4 - 4) none) 8 cells =
      filled n sz code cells := by
    have hrest : n - 4 - 4 - cells.length = n - (8 + cells.length) := by omega
    rw [filled, ← hrest]
    exact blit_replicate (word sz ++ word code) cells (n - 4 - 4)
  have hword : ∀ w, (word w).length = 4 := fun _ => rfl
  simp only [Option.bind_eq_bind]
  rw [Heap.alloc, write_last, List.length_replicate, hword]
  by_cases hfour : 0 + 4 ≤ n
  · rw [if_pos hfour, Option.bind_some, hsize, write_last, List.length_append, hword, hword,
      List.length_replicate]
    by_cases height : 4 + 4 ≤ 4 + (n - 4)
    · rw [if_pos height, Option.bind_some, hcode, write_last, htext, List.length_append,
        List.length_append, hword, hword, List.length_replicate]
      by_cases hfit : 8 + cells.length ≤ n
      · rw [if_pos hfit, if_pos (by omega), Option.bind_some]
      · rw [if_neg hfit, if_neg (by omega), Option.bind_none]
    · rw [if_neg height, if_neg (by omega)]
      rfl
  · rw [if_neg hfour, if_neg (by omega)]
    rfl

/-! ## The constructors -/

/-- The block of a value, with the NUL. -/
def Value.encode (v : Value) : List Cell :=
  word (BitVec.ofNat 32 (v.msg.1.length + 9)) ++ word v.code ++ v.msg.cells ++ [some 0]

theorem drop_filled : (filled n sz code cells).drop 8 = cells ++ List.replicate (n - (8 + cells.length)) none := by
  rw [filled, List.append_assoc]
  rfl

/-- `Status(int, const char *)` is undefined, or makes a block without a NUL. -/
theorem make_cases : make h code msg = none ∨
    ∃ block, make h code msg = some (h ++ [some block], some h.length) ∧ cstr (block.drop 8) = none := by
  have hmake := write_alloc h (BitVec.ofNat 32 (msg.1.length + 8)).toNat
    (BitVec.ofNat 32 (msg.1.length + 8)) code
    (msg.cells.take (BitVec.ofNat 32 (msg.1.length + 8) - 8).toNat)
  split at hmake
  · refine .inr ⟨_, hmake, ?_⟩
    rw [drop_filled]
    exact cstr_take
  · exact .inl hmake

theorem fromFormat_defined (hint : vsnprintf msg + 8 + 1 ≤ intMax)
    (hsz : BitVec.ofInt 32 (vsnprintf msg + 8 + 1) = sz) (hcells : printed msg (sz - 8).toNat = cells) :
    fromFormat h code msg =
      if 8 + cells.length ≤ sz.toNat then some (h ++ [some (filled sz.toNat sz code cells)], some h.length)
      else none := by
  subst hsz hcells
  rw [fromFormat, if_neg (Int.not_lt.mpr hint)]
  exact write_alloc ..

@[simp] theorem length_cells : msg.cells.length = msg.1.length := List.length_map _

/-- The size of a block with the NUL fits 32 bits. -/
theorem toNat_size (hfit : msg.1.length + 9 ≤ intMax) :
    (BitVec.ofNat 32 (msg.1.length + 9)).toNat = msg.1.length + 9 := by
  rw [BitVec.toNat_ofNat, Nat.mod_eq_of_lt]
  simp only [intMax] at hfit
  omega

/-- Where the size of its block does not overflow, `fromFormat` makes the block of its value. -/
theorem fromFormat_eq (hfit : msg.1.length + 9 ≤ intMax) :
    fromFormat h code msg = some (h ++ [some (Value.encode ⟨code, msg⟩)], some h.length) := by
  have hresult : vsnprintf msg + 8 + 1 = (msg.1.length + 9 : Nat) := by
    rw [vsnprintf, if_pos (by omega)]
    omega
  have hsize := toNat_size hfit
  have hroom : (BitVec.ofNat 32 (msg.1.length + 9) - 8).toNat = msg.1.length + 1 := by
    rw [BitVec.toNat_sub_of_le]
    · rw [hsize]
      rfl
    · rw [BitVec.le_def, hsize]
      exact Nat.le_add_left 8 (msg.1.length + 1)
  have hcells : printed msg (msg.1.length + 1) = msg.cells ++ [some 0] := by
    rw [printed, if_neg (Nat.succ_ne_zero _), Nat.add_sub_cancel, List.take_of_length_le (by simp)]
  rw [fromFormat_defined (by omega) (by rw [hresult, BitVec.ofInt_natCast]) (by rw [hroom, hcells]), hsize]
  have hlength : 8 + (msg.cells ++ [some 0]).length = msg.1.length + 9 := by
    rw [List.length_append, length_cells, List.length_singleton]
    omega
  rw [if_pos (Nat.le_of_eq hlength), filled, hlength, Nat.sub_self, List.replicate_zero, List.append_nil,
    Value.encode, List.append_assoc _ msg.cells]

/-- Otherwise it is undefined, or `vsnprintf` fails and the block has no text. -/
theorem fromFormat_cases (hfit : ¬msg.1.length + 9 ≤ intMax) : fromFormat h code msg = none ∨
    ∃ block, fromFormat h code msg = some (h ++ [some block], some h.length) ∧ cstr (block.drop 8) = none := by
  by_cases hlen : msg.1.length ≤ intMax
  · left
    rw [fromFormat, if_pos]
    rw [vsnprintf, if_pos hlen]
    omega
  · right
    have hresult : vsnprintf msg + 8 + 1 = 8 := by
      rw [vsnprintf, if_neg hlen]
      rfl
    have hsize : BitVec.ofInt 32 (vsnprintf msg + 8 + 1) = 8 := by
      rw [hresult]
      rfl
    have hcells : printed msg ((8 : BitVec 32) - 8).toNat = [] := rfl
    refine ⟨_, fromFormat_defined ?_ hsize hcells, ?_⟩
    · rw [hresult]
      decide
    · rw [drop_filled]
      rfl

theorem length_encode : v.encode.length = v.msg.1.length + 9 := by
  simp only [Value.encode, List.length_append, length_cells, word, List.length_cons, List.length_nil]
  omega

theorem read_encode (hblock : Slots.get h p = some v.encode) (hn : i + n ≤ v.msg.1.length + 9) :
    h.read p i n = some (Block.slice v.encode i (i + n)) := by
  rw [Heap.read, hblock, Option.bind_some, if_pos]
  rwa [length_encode]

/-- The copy has the same block. -/
theorem copyState_eq (hfit : v.msg.1.length + 9 ≤ intMax) (hblock : Slots.get h p = some v.encode) :
    copyState h (some p) = some (h ++ [some v.encode], some h.length) := by
  have hsize := toNat_size hfit
  have hword : Block.slice v.encode 0 (0 + 4) = word (BitVec.ofNat 32 (v.msg.1.length + 9)) := rfl
  have hwhole : Block.slice v.encode 0 (0 + (v.msg.1.length + 9)) = v.encode := by
    rw [Block.slice, Nat.zero_add, ← length_encode, List.take_length, List.drop_zero]
  have hblit : Block.blit (List.replicate (v.msg.1.length + 9) none) 0 v.encode = v.encode := by
    have h := blit_replicate [] v.encode (v.msg.1.length + 9)
    rw [length_encode, Nat.sub_self] at h
    simpa using h
  have hcopy : ∀ block, Slots.get (h ++ [some block]) p = some v.encode := fun _ =>
    Slots.get_append_of_get hblock
  simp only [copyState, Option.bind_eq_bind]
  rw [read_encode hblock (by omega), Option.bind_some, hword, ofWord_word, Option.bind_some, hsize,
    Heap.alloc, read_encode (hcopy _) (by omega), Option.bind_some, hwhole, write_last, hblit, if_pos]
  · rfl
  · simp only [length_encode, List.length_replicate, Nat.zero_add, Nat.le_refl]

theorem code_encode (hblock : Slots.get h p = some v.encode) : h.code (some p) = some v.code := by
  have hword : Block.slice v.encode 4 (4 + 4) = word v.code := rfl
  rw [Heap.code, read_encode hblock (by omega), Option.bind_some, hword, ofWord_word]

theorem msg_encode (hblock : Slots.get h p = some v.encode) : h.msg (some p) = some v.msg.1 := by
  have hdrop : v.encode.drop 8 = v.msg.cells ++ [some 0] := by
    rw [Value.encode, List.append_assoc]
    rfl
  rw [Heap.msg, hblock, Option.bind_some, hdrop, cstr_cells]

/-! ## What the objects hold -/

/-- The state of an object and the value it has been given last: nothing of an object that has been
destroyed, no block or one with the value. -/
inductive Rep (h : Heap) : Option (Option Nat) → Option Value → Prop
  | destroyed : Rep h none none
  | null : Rep h (some none) (some .ok)
  | block {p : Nat} {v : Value} : Slots.get h p = some v.encode → v.msg.1.length + 9 ≤ intMax →
    Rep h (some (some p)) (some v)

/-- Each object has its value, in a block of its own. -/
structure Inv (s : State) (vs : List (Option Value)) : Prop where
  length : s.objects.length = vs.length
  rep : ∀ i, Rep s.heap (Slots.get s.objects i) (Slots.get vs i)
  uniq : ∀ {i j p}, Slots.get s.objects i = some (some p) → Slots.get s.objects j = some (some p) → i = j

/-- Every object has the code and the message that it has been given last, and reading them is defined. -/
def Holds (s : State) (vs : List (Option Value)) : Prop :=
  ∀ i v, Slots.get vs i = some v → ∃ state, Slots.get s.objects i = some state ∧
    s.heap.code state = some v.code ∧ s.heap.msg state = some v.msg.1

/-! ## The invariant -/

theorem Rep.mono {o : Option (Option Nat)} {v : Option Value} (hrep : Rep h o v)
    (hheap : ∀ p, o = some (some p) → Slots.get h' p = Slots.get h p) : Rep h' o v := by
  cases hrep with
  | destroyed => exact .destroyed
  | null => exact .null
  | block hblock hfit => exact .block ((hheap _ rfl).trans hblock) hfit

/-- `delete[] state` frees the block of this object and no other. -/
theorem Rep.free (hrep : Rep h (some state) (some v)) :
    ∃ h', h.free state = some h' ∧ ∀ p, state ≠ some p → Slots.get h' p = Slots.get h p := by
  cases hrep with
  | null => exact ⟨h, rfl, fun _ _ => rfl⟩
  | @block p _ hblock _ =>
    refine ⟨h.set p none, ?_, fun q hq => Slots.get_set_of_ne fun heq => hq (congrArg some heq.symm)⟩
    rw [Heap.free, hblock, Option.map_some]

/-- A copy is in a new block, if it is in any. -/
theorem Rep.copyState (hrep : Rep h (some state) (some v)) :
    ∃ h' state', copyState h state = some (h', state') ∧ Rep h' (some state') (some v) ∧
      (∀ p b, Slots.get h p = some b → Slots.get h' p = some b) ∧
      ∀ p, state' = some p → Slots.get h p = none := by
  cases hrep with
  | null => exact ⟨h, none, rfl, .null, fun _ _ hb => hb, nofun⟩
  | block hblock hfit =>
    refine ⟨_, _, copyState_eq hfit hblock, .block Slots.get_length hfit,
      fun _ _ hb => Slots.get_append_of_get hb, ?_⟩
    intro p hp
    exact Slots.get_eq_none (Nat.le_of_eq (Option.some.inj hp))

/-- An object that has been given a value exists. -/
theorem Inv.object (h : Inv s vs) (hv : Slots.get vs i = some v) :
    ∃ state, Slots.get s.objects i = some state ∧ Rep s.heap (some state) (some v) := by
  have hrep := h.rep i
  rw [hv] at hrep
  cases hstate : Slots.get s.objects i with
  | none =>
    rw [hstate] at hrep
    cases hrep
  | some state =>
    rw [hstate] at hrep
    exact ⟨state, rfl, hrep⟩

theorem Inv.holds (h : Inv s vs) : Holds s vs := by
  intro i v hv
  obtain ⟨state, hstate, hrep⟩ := h.object hv
  refine ⟨state, hstate, ?_⟩
  cases hrep with
  | null => exact ⟨rfl, rfl⟩
  | block hblock _ => exact ⟨code_encode hblock, msg_encode hblock⟩

/-- The block of an object is not free. -/
theorem Inv.live (h : Inv s vs) (hp : Slots.get s.objects i = some (some p)) :
    ∃ b, Slots.get s.heap p = some b := by
  have hrep := h.rep i
  rw [hp] at hrep
  generalize Slots.get vs i = v at hrep
  cases hrep with
  | block hblock _ => exact ⟨_, hblock⟩

/-- A constructor has made an object, with a block of its own if it has one. -/
theorem Inv.construct (h : Inv s vs)
    (hheap : ∀ i p, Slots.get s.objects i = some (some p) → Slots.get h' p = Slots.get s.heap p)
    (hrep : Rep h' (some state) (some v))
    (hown : ∀ i p, state = some p → Slots.get s.objects i ≠ some (some p)) :
    Inv ⟨h', s.objects ++ [some state]⟩ (vs ++ [some v]) := by
  refine ⟨by rw [List.length_append, List.length_append, h.length]; rfl, fun i => ?_, fun {i j p} hi hj => ?_⟩
  · by_cases hlast : i = s.objects.length
    · rw [hlast, Slots.get_length, h.length, Slots.get_length]
      exact hrep
    · rw [Slots.get_concat hlast, Slots.get_concat (h.length ▸ hlast)]
      exact (h.rep i).mono (hheap i)
  · rcases Slots.of_get_concat hi with ⟨hilast, hio⟩ | hi
    · rcases Slots.of_get_concat hj with ⟨hjlast, -⟩ | hj
      · rw [hilast, hjlast]
      · exact absurd hj (hown j p (Option.some.inj hio))
    · rcases Slots.of_get_concat hj with ⟨-, hjo⟩ | hj
      · exact absurd hi (hown i p (Option.some.inj hjo))
      · exact h.uniq hi hj

/-- An object has been given another state, which no other object has. -/
theorem Inv.set {o : Option (Option Nat)} {v : Option Value} (h : Inv s vs) (hi : i < s.objects.length)
    (hheap : ∀ j p, j ≠ i → Slots.get s.objects j = some (some p) → Slots.get h' p = Slots.get s.heap p)
    (hrep : Rep h' o v)
    (hown : ∀ j p, j ≠ i → o = some (some p) → Slots.get s.objects j ≠ some (some p)) :
    Inv ⟨h', s.objects.set i o⟩ (vs.set i v) := by
  refine ⟨by rw [List.length_set, List.length_set, h.length], fun j => ?_, fun {j k p} hj hk => ?_⟩
  · by_cases hji : j = i
    · rw [hji, Slots.get_set_self hi, Slots.get_set_self (h.length ▸ hi)]
      exact hrep
    · rw [Slots.get_set_of_ne hji, Slots.get_set_of_ne hji]
      exact (h.rep j).mono fun p => hheap j p hji
  · rcases Slots.of_get_set hj with ⟨hji, hjo⟩ | ⟨hji, hj⟩
    · rcases Slots.of_get_set hk with ⟨hki, -⟩ | ⟨hki, hk⟩
      · rw [hji, hki]
      · exact absurd hk (hown k p hki hjo)
    · rcases Slots.of_get_set hk with ⟨-, hko⟩ | ⟨-, hk⟩
      · exact absurd hj (hown j p hji hko)
      · exact h.uniq hj hk

/-! ## Every program -/

/-- The constructor is not the one that leaves out the NUL, the size of a formatted text fits an `int`, and
an object is copied to itself only if it has no block. -/
def Careful (s : State) : Op → Prop
  | .make _ _ | .fromSystem _ _ => False
  | .fromFormat _ msg => msg.1.length + 9 ≤ intMax
  | .copyAssign i r => i = r → Slots.get s.objects i = some none
  | _ => True

/-- A constructor has allocated a block, or none. -/
theorem Inv.construct_new (h : Inv s vs) (hheap : ∀ p b, Slots.get s.heap p = some b → Slots.get h' p = some b)
    (hrep : Rep h' (some state) (some v)) (hnew : ∀ p, state = some p → Slots.get s.heap p = none) :
    Inv ⟨h', s.objects ++ [some state]⟩ (vs ++ [some v]) := by
  refine h.construct (fun i p hp => ?_) hrep fun i p hstate hp => ?_
  · obtain ⟨b, hb⟩ := h.live hp
    rw [hheap p b hb, hb]
  · obtain ⟨b, hb⟩ := h.live hp
    rw [hnew p hstate] at hb
    cases hb

/-- Another object has another block. -/
theorem Inv.sep (h : Inv s vs) (hi : Slots.get s.objects i = some state)
    (hj : Slots.get s.objects j = some (some p)) (hne : j ≠ i) : state ≠ some p :=
  fun heq => hne (h.uniq hj (heq ▸ hi))

theorem Inv.copyAssign (h : Inv s vs) (hcareful : i = j → Slots.get s.objects i = some none) {w : Value}
    (hi : Slots.get vs i = some w) (hj : Slots.get vs j = some v) :
    ∃ s', step s (.copyAssign i j) = some s' ∧ Inv s' (vs.set i (some v)) := by
  obtain ⟨old, hold, holdrep⟩ := h.object hi
  obtain ⟨state, hstate, hrep⟩ := h.object hj
  have hsep : ∀ p, state = some p → old ≠ some p := by
    rintro p rfl
    by_cases hij : i = j
    · have hnull := hcareful hij
      rw [hij, hstate] at hnull
      cases hnull
    · exact h.sep hold hstate (Ne.symm hij)
  obtain ⟨h₁, hfree, hkept⟩ := holdrep.free
  obtain ⟨h₂, state', hcopy, hrep', hmore, hnew⟩ :=
    (hrep.mono fun p hp => hkept p (hsep p (Option.some.inj hp))).copyState
  refine ⟨⟨h₂, s.objects.set i (some state')⟩, ?_, ?_⟩
  · simp only [step, hold, hstate, hfree, hcopy, Option.bind_eq_bind, Option.bind_some]
  · have hother : ∀ j p, j ≠ i → Slots.get s.objects j = some (some p) →
        ∃ b, Slots.get s.heap p = some b ∧ Slots.get h₁ p = some b := by
      intro j p hne hp
      obtain ⟨b, hb⟩ := h.live hp
      exact ⟨b, hb, (hkept p (h.sep hold hp hne)).trans hb⟩
    refine h.set (Slots.lt_of_get hold) (fun j p hne hp => ?_) hrep' fun j p hne hown hp => ?_
    · obtain ⟨b, hb, hb₁⟩ := hother j p hne hp
      rw [hmore p b hb₁, hb]
    · obtain ⟨b, -, hb₁⟩ := hother j p hne hp
      rw [hnew p (Option.some.inj hown)] at hb₁
      cases hb₁

/-- The object that is moved from has no block any more. -/
theorem Inv.moveFrom (h : Inv s vs) (hi : Slots.get s.objects i = some state) :
    Inv ⟨s.heap, s.objects.set i (some none)⟩ (vs.set i (some .ok)) ∧
      ∀ j p, state = some p → Slots.get (s.objects.set i (some none)) j ≠ some (some p) := by
  refine ⟨h.set (Slots.lt_of_get hi) (fun _ _ _ _ => rfl) .null nofun, fun j p hp hj => ?_⟩
  rcases Slots.of_get_set hj with ⟨-, hnone⟩ | ⟨hne, hj⟩
  · cases hnone
  · exact h.sep hi hj hne hp

theorem Inv.moveAssign (h : Inv s vs) {w : Value} (hi : Slots.get vs i = some w)
    (hj : Slots.get vs j = some v) :
    ∃ s', step s (.moveAssign i j) = some s' ∧ Inv s' ((vs.set i (some v)).set j (some .ok)) := by
  obtain ⟨old, hold, holdrep⟩ := h.object hi
  obtain ⟨state, hstate, hrep⟩ := h.object hj
  obtain ⟨h₁, hfree, hkept⟩ := holdrep.free
  refine ⟨⟨h₁, (s.objects.set i (some state)).set j (some none)⟩, ?_, ?_⟩
  · simp only [step, hold, hstate, hfree, Option.bind_eq_bind, Option.bind_some]
  · by_cases hij : i = j
    · rw [hij, List.set_set, List.set_set]
      rw [hij] at hold
      exact h.set (Slots.lt_of_get hold) (fun k p hne hp => hkept p (h.sep hold hp hne)) .null nofun
    · obtain ⟨hmoved, hown⟩ := h.moveFrom hstate
      have hold' : Slots.get (s.objects.set j (some none)) i = some old := by
        rw [Slots.get_set_of_ne hij, hold]
      rw [List.set_comm _ _ hij, List.set_comm _ _ hij]
      refine hmoved.set (Slots.lt_of_get hold') (fun k p hne hp => hkept p (hmoved.sep hold' hp hne)) ?_
        fun k p _ hp => hown k p (Option.some.inj hp)
      refine hrep.mono fun p hp => hkept p ?_
      cases hp
      exact h.sep hold hstate (Ne.symm hij)

theorem Inv.step (h : Inv s vs) (hcareful : Careful s op) (hgiven : given vs op = some vs') :
    ∃ s', step s op = some s' ∧ Inv s' vs' := by
  cases op with
  | default =>
    cases hgiven
    exact ⟨_, rfl, h.construct_new (fun _ _ hb => hb) .null nofun⟩
  | make | fromSystem => exact hcareful.elim
  | fromFormat code msg =>
    cases hgiven
    refine ⟨_, congrArg (Option.map s.construct) (fromFormat_eq hcareful), ?_⟩
    exact h.construct_new (fun _ _ hb => Slots.get_append_of_get hb) (.block Slots.get_length hcareful)
      fun p hp => Slots.get_eq_none (Nat.le_of_eq (Option.some.inj hp))
  | copy r =>
    obtain ⟨v, hv, heq⟩ := Option.bind_eq_some_iff.mp hgiven
    cases heq
    obtain ⟨state, hstate, hrep⟩ := h.object hv
    obtain ⟨h', state', hcopy, hrep', hmore, hnew⟩ := hrep.copyState
    refine ⟨_, ?_, h.construct_new hmore hrep' hnew⟩
    simp only [StatusObject.step, hstate, hcopy, Option.bind_eq_bind, Option.bind_some, Option.map_some]
    rfl
  | move r =>
    obtain ⟨v, hv, heq⟩ := Option.bind_eq_some_iff.mp hgiven
    cases heq
    obtain ⟨state, hstate, hrep⟩ := h.object hv
    obtain ⟨hmoved, hown⟩ := h.moveFrom hstate
    refine ⟨_, ?_, hmoved.construct (fun _ _ _ => rfl) hrep hown⟩
    simp only [StatusObject.step, hstate, Option.bind_eq_bind, Option.bind_some]
    rfl
  | copyAssign i r =>
    obtain ⟨w, hi, hrest⟩ := Option.bind_eq_some_iff.mp hgiven
    obtain ⟨v, hr, heq⟩ := Option.bind_eq_some_iff.mp hrest
    cases heq
    exact h.copyAssign hcareful hi hr
  | moveAssign i r =>
    obtain ⟨w, hi, hrest⟩ := Option.bind_eq_some_iff.mp hgiven
    obtain ⟨v, hr, heq⟩ := Option.bind_eq_some_iff.mp hrest
    cases heq
    exact h.moveAssign hi hr
  | destroy i =>
    obtain ⟨v, hv, heq⟩ := Option.bind_eq_some_iff.mp hgiven
    cases heq
    obtain ⟨state, hstate, hrep⟩ := h.object hv
    obtain ⟨h', hfree, hkept⟩ := hrep.free
    refine ⟨⟨h', s.objects.set i none⟩, ?_, ?_⟩
    · simp only [StatusObject.step, hstate, hfree, Option.bind_eq_bind, Option.bind_some]
    · exact h.set (Slots.lt_of_get hstate) (fun j p hne hp => hkept p (h.sep hstate hp hne)) .destroyed nofun

/-- A constructor that is undefined, or leaves the NUL out of its block. -/
theorem not_holds_construct {r : Option (Heap × Option Nat)} (hlength : s.objects.length = vs.length)
    (hr : r = none ∨ ∃ block, r = some (s.heap ++ [some block], some s.heap.length) ∧
      cstr (block.drop 8) = none)
    (hstep : r.map s.construct = some s') : ¬Holds s' (vs ++ [some v]) := by
  obtain rfl | ⟨block, rfl, hblock⟩ := hr
  · cases hstep
  · cases hstep
    intro hholds
    obtain ⟨state, hstate, -, hmsg⟩ := hholds vs.length v Slots.get_length
    simp only [State.construct] at hstate hmsg
    rw [← hlength, Slots.get_length] at hstate
    cases hstate
    rw [Heap.msg, Slots.get_length, Option.bind_some, hblock] at hmsg
    cases hmsg

/-- An object that is copied to itself reads the block that it has freed. -/
theorem copyAssign_self (hp : Slots.get s.objects i = some (some p)) : step s (.copyAssign i i) = none := by
  simp only [step, hp, Option.bind_eq_bind, Option.bind_some]
  cases hfree : s.heap.free (some p) with
  | none => rfl
  | some h' =>
    obtain ⟨b, hb, rfl⟩ := Option.map_eq_some_iff.mp hfree
    have hnone : Slots.get (s.heap.set p none) p = none := Slots.get_set_self (Slots.lt_of_get hb)
    simp only [Option.bind_some, copyState, Heap.read, hnone, Option.bind_none, Option.bind_eq_bind]

theorem Inv.not_holds (h : Inv s vs) (hcareless : ¬Careful s op) (hgiven : given vs op = some vs')
    (hstep : StatusObject.step s op = some s') : ¬Holds s' vs' := by
  cases op with
  | default | copy | move | moveAssign | destroy => exact absurd trivial hcareless
  | make | fromSystem =>
    cases hgiven
    exact not_holds_construct h.length make_cases hstep
  | fromFormat =>
    cases hgiven
    exact not_holds_construct h.length (fromFormat_cases hcareless) hstep
  | copyAssign i r =>
    obtain ⟨rfl, hblock⟩ := Classical.not_imp.mp hcareless
    obtain ⟨w, hi, -⟩ := Option.bind_eq_some_iff.mp hgiven
    obtain ⟨state, hstate, -⟩ := h.object hi
    cases state with
    | none => exact absurd hstate hblock
    | some p =>
      rw [copyAssign_self hstate] at hstep
      cases hstep

/-- A program, from its start. -/
def run (ops : List Op) : Option State := ops.foldlM step {}

def givenTo (ops : List Op) : Option (List (Option Value)) := ops.foldlM given []

/-- At each moment of the program its objects have the values that they have been given last, and nothing
that has been done or that `code` and `msg` do is undefined. -/
def KeepsValues (ops : List Op) : Prop :=
  ∀ pre, pre <+: ops → ∃ s vs, run pre = some s ∧ givenTo pre = some vs ∧ Holds s vs

theorem inv_init : Inv {} [] :=
  ⟨rfl, fun i => by rw [Slots.get_eq_none (Nat.zero_le i), Slots.get_eq_none (Nat.zero_le i)]; exact .destroyed,
    fun hi => absurd (Slots.lt_of_get hi) (Nat.not_lt_zero _)⟩

theorem foldlM_concat {σ : Type} {f : σ → Op → Option σ} {a b : σ} :
    (ops ++ [op]).foldlM f a = some b ↔ ∃ c, ops.foldlM f a = some c ∧ f c op = some b := by
  rw [List.foldlM_append]
  simp only [List.foldlM_cons, List.foldlM_nil, bind_pure, Option.bind_eq_bind, Option.bind_eq_some_iff]

theorem run_inv (h : Run (guarded Careful (ofFun step)) {} ops s) (hgiven : givenTo ops = some vs) :
    run ops = some s ∧ Inv s vs := by
  refine ⟨run_ofFun_iff.mp (h.mono fun hs => hs.2), ?_⟩
  induction h generalizing vs with
  | nil =>
    cases hgiven
    exact inv_init
  | snoc _ hs ih =>
    obtain ⟨ws, hbefore, hlast⟩ := foldlM_concat.mp hgiven
    obtain ⟨s', hstep, hinv⟩ := (ih hbefore).step hs.1 hlast
    cases hs.2.symm.trans hstep
    exact hinv

/-- **What a `Status` keeps.** For every program on `Status` objects, each object has at every moment the
code and the message that it has been given last, and no memory is misused, exactly when every operation
has been careful. -/
theorem keepsValues_iff (h : givenTo ops = some vs) :
    KeepsValues ops ↔ ∃ s, Run (guarded Careful (ofFun step)) {} ops s := by
  induction ops using List.reverseRecOn generalizing vs with
  | nil =>
    refine iff_of_true (fun pre hpre => ?_) ⟨{}, .nil⟩
    rw [List.prefix_nil.mp hpre]
    exact ⟨{}, [], rfl, rfl, inv_init.holds⟩
  | append_singleton ops op ih =>
    obtain ⟨ws, hbefore, hlast⟩ := foldlM_concat.mp h
    constructor
    · intro hkept
      obtain ⟨s, hrun⟩ := (ih hbefore).mp fun pre hpre => hkept pre (hpre.trans (List.prefix_append _ _))
      obtain ⟨hs, hinv⟩ := run_inv hrun hbefore
      obtain ⟨s', vs', hs', hvs', hholds⟩ := hkept _ (List.prefix_refl _)
      obtain ⟨t, ht, hstep⟩ := foldlM_concat.mp hs'
      cases hs.symm.trans ht
      cases h.symm.trans hvs'
      by_cases hcareful : Careful s op
      · exact ⟨s', hrun.snoc ⟨hcareful, hstep⟩⟩
      · exact absurd hholds (hinv.not_holds hcareful hlast hstep)
    · rintro ⟨s', hrun'⟩
      obtain ⟨s, hrun, hstep⟩ := run_snoc_iff.mp hrun'
      intro pre hpre
      rcases List.prefix_concat_iff.mp hpre with rfl | hpre
      · obtain ⟨hs', hinv⟩ := run_inv hrun' h
        exact ⟨s', vs, hs', h, hinv.holds⟩
      · exact (ih hbefore).mpr ⟨s, hrun⟩ pre hpre

/-- `fromFormat`, a copy, and a move back. -/
def formatted : List Op := [.fromFormat 2 ⟨[0x78], by decide⟩, .copy 0, .moveAssign 0 1]

theorem keepsValues_iff_formatted : KeepsValues formatted := by
  have hmsg : Careful {} (.fromFormat 2 ⟨[0x78], by decide⟩) := show 1 + 9 ≤ intMax by decide
  exact (keepsValues_iff rfl).mpr ⟨_, .cons ⟨hmsg, rfl⟩ (.cons ⟨trivial, rfl⟩ (.single ⟨trivial, rfl⟩))⟩

/-- The message of `Status(2, "x")` has no end. -/
theorem not_keepsValues : ¬∀ ops vs, givenTo ops = some vs → KeepsValues ops := by
  intro h
  have hgiven : givenTo [.make 2 ⟨[0x78], by decide⟩] = some [some ⟨2, ⟨[0x78], by decide⟩⟩] := rfl
  obtain ⟨s, vs, hs, hvs, hholds⟩ := h _ _ hgiven _ (List.prefix_refl _)
  cases hgiven.symm.trans hvs
  have hstep : step {} (.make 2 ⟨[0x78], by decide⟩) = some s := by simpa [run] using hs
  have hcareless : ¬Careful {} (.make 2 ⟨[0x78], by decide⟩) := nofun
  exact inv_init.not_holds hcareless rfl hstep hholds

end NetLibrary.StatusObject
