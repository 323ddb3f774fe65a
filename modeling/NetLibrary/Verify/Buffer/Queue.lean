import Mathlib.Logic.Function.Basic
import NetLibrary.Theory.Run
import NetLibrary.Verify.Buffer.Content

/-!
# Buffers refine byte queues

A program that works on a family of buffers is a run of `step`; the same run on byte queues is
`Spec`. `runs_refine` is the simulation: every buffer stays well formed and holds what its queue
holds, whatever the growth path of each operation was.
-/

namespace NetLibrary.Buffer
open LTS Function

/-- One operation on a family of buffers. -/
inductive Op (ι : Type) : Type 1
  | append (i : ι) (bytes : List Cell)
  | appendValue (i : ι) (T : Type) (rep : T → List Cell) (v : T)
  /-- `allocRoom` of as many bytes as the caller then writes through the pointer it got. -/
  | allocRoom (i : ι) (bytes : List Cell)
  | makeRoom (i : ι) (len : Nat)
  | makeRoom' (i : ι)
  /-- The caller writes `bytes` at `end()`, then calls `addSize(n)`. -/
  | addSize (i : ι) (n : Nat) (bytes : List Cell)
  | consume (i : ι) (n : Nat)
  | absorb (i j : ι)
  | clear (i : ι)
  | setSuggestSize (i : ι) (sz : Nat)
  /-- The copy constructor, with the buffer named `i` as the new one. -/
  | copy (i j : ι)

variable {ι : Type} [DecidableEq ι]

/-- The operation on the buffers themselves, where the caller keeps to the interface. -/
def step (s : ι → Buffer) : Op ι → Option (ι → Buffer)
  | .append i bytes => some (update s i ((s i).append bytes))
  | .appendValue i _ rep v => some (update s i ((s i).appendValue rep v))
  | .allocRoom i bytes =>
    let (x, p) := (s i).allocRoom bytes.length
    some (update s i (x.store p bytes))
  | .makeRoom i len => some (update s i ((s i).makeRoom len))
  | .makeRoom' i => some (update s i (s i).makeRoom')
  | .addSize i n bytes =>
    if bytes.length ≤ n ∧ n ≤ (s i).space then
      some (update s i (((s i).store (s i).e bytes).addSize n))
    else none
  | .consume i n => if n ≤ (s i).size then some (update s i ((s i).consume n)) else none
  | .absorb i j =>
    if i = j then some s
    else some (update (update s i ((s i).absorb (s j)).1) j ((s i).absorb (s j)).2)
  | .clear i => some (update s i (s i).clear)
  | .setSuggestSize i sz => some (update s i ((s i).setSuggestSize sz))
  | .copy i j => if i = j then none else some (update s i (s j).copyFrom)

/-- The operation on byte queues. -/
inductive Spec : (ι → List Cell) → Op ι → (ι → List Cell) → Prop
  | append : Spec a (.append i bytes) (update a i (a i ++ bytes))
  | appendValue : Spec a (.appendValue i T rep v) (update a i (a i ++ rep v))
  | allocRoom : Spec a (.allocRoom i bytes) (update a i (a i ++ bytes))
  | makeRoom : Spec a (.makeRoom i len) a
  | makeRoom' : Spec a (.makeRoom' i) a
  | addSize : (bytes ++ rest).length = n →
    Spec a (.addSize i n bytes) (update a i (a i ++ (bytes ++ rest)))
  | consume : Spec a (.consume i n) (update a i ((a i).drop n))
  | absorb : i ≠ j → Spec a (.absorb i j) (update (update a i (a i ++ a j)) j [])
  | absorb_self : Spec a (.absorb i i) a
  | clear : Spec a (.clear i) (update a i [])
  | setSuggestSize : Spec a (.setSuggestSize i sz) a
  | copy : Spec a (.copy i j) (update a i (a j))

/-- What an operation promises beside the contents. -/
def Op.Post (s : ι → Buffer) : Op ι → (ι → Buffer) → Prop
  | .makeRoom i len, s' => len ≤ (s' i).space
  | .absorb _ _, s' => ∀ k, (s' k).exp = (s k).exp
  | _, _ => True

/-- The buffers `s` are well formed and hold the queues `a`. -/
def Refines (s : ι → Buffer) (a : ι → List Cell) : Prop :=
  ∀ i, (s i).WF ∧ (s i).content = a i

omit [DecidableEq ι] in
theorem Refines.init : Refines (fun _ : ι => {}) (fun _ => []) :=
  fun _ => ⟨.init, content_init⟩

theorem Refines.update {s : ι → Buffer} {a : ι → List Cell} (h : Refines s a) (hx : x.WF)
    (hc : x.content = l) : Refines (update s i x) (update a i l) := by
  intro k
  by_cases hk : k = i
  · subst hk; simpa using ⟨hx, hc⟩
  · simpa [hk] using h k

/-- A changed buffer that holds the same bytes refines the unchanged queues. -/
theorem Refines.update_left {s : ι → Buffer} {a : ι → List Cell} (h : Refines s a) (hx : x.WF)
    (hc : x.content = (s i).content) : Refines (Function.update s i x) a := by
  have := h.update (i := i) hx (hc.trans (h i).2)
  rwa [update_eq_self] at this

/-- One operation on buffers is the same operation on queues. -/
theorem step_refines {s s' : ι → Buffer} {a : ι → List Cell} {op : Op ι} (h : Refines s a)
    (hs : step s op = some s') : ∃ a', Spec a op a' ∧ Refines s' a' := by
  cases op with
  | append i bytes =>
    cases hs
    exact ⟨_, .append, h.update (h i).1.append (by rw [content_append (h i).1, (h i).2])⟩
  | appendValue i T rep v =>
    cases hs
    exact ⟨_, .appendValue, h.update (h i).1.append (by
      rw [appendValue_eq, content_append (h i).1, (h i).2])⟩
  | allocRoom i bytes =>
    cases hs
    have hc : ((s i).append bytes).content = a i ++ bytes := by
      rw [content_append (h i).1, (h i).2]
    exact ⟨_, .allocRoom, h.update (h i).1.append hc⟩
  | makeRoom i len =>
    cases hs
    exact ⟨a, .makeRoom, h.update_left (h i).1.makeRoom (content_makeRoom (h i).1)⟩
  | makeRoom' i =>
    cases hs
    exact ⟨a, .makeRoom', h.update_left (h i).1.makeRoom' (content_makeRoom' (h i).1)⟩
  | addSize i n bytes =>
    simp only [step, Option.ite_none_right_eq_some, Option.some.injEq] at hs
    obtain ⟨⟨hb, hn⟩, rfl⟩ := hs
    obtain ⟨rest, hc, hlen⟩ := content_store_addSize_of_le (h i).1 hb hn
    have hst : ((s i).store (s i).e bytes).WF := (h i).1.store (by
      have := (h i).1.e_le_cap; simp only [space] at hn; omega)
    exact ⟨_, .addSize hlen, h.update (hst.addSize hn) (by rw [hc, (h i).2])⟩
  | consume i n =>
    simp only [step, Option.ite_none_right_eq_some, Option.some.injEq] at hs
    obtain ⟨-, rfl⟩ := hs
    exact ⟨_, .consume, h.update (h i).1.consume (by rw [content_consume (h i).1, (h i).2])⟩
  | absorb i j =>
    by_cases hij : i = j
    · subst hij
      simp only [step, if_pos, Option.some.injEq] at hs
      subst hs
      exact ⟨a, .absorb_self, h⟩
    · simp only [step, if_neg hij, Option.some.injEq] at hs
      subst hs
      obtain ⟨hx, hy, hcx, hcy, -⟩ := absorb_spec (h i).1 (h j).1
      refine ⟨_, .absorb hij, (h.update hx ?_).update hy hcy⟩
      rw [hcx, (h i).2, (h j).2]
  | clear i =>
    cases hs
    exact ⟨_, .clear, h.update .clear content_clear⟩
  | setSuggestSize i sz =>
    cases hs
    exact ⟨a, .setSuggestSize, h.update_left (h i).1.setSuggestSize content_setSuggestSize⟩
  | copy i j =>
    simp only [step, Option.ite_none_left_eq_some, Option.some.injEq] at hs
    obtain ⟨-, rfl⟩ := hs
    exact ⟨_, .copy, h.update (h j).1.copyFrom (by rw [content_copyFrom (h j).1, (h j).2])⟩

theorem step_post {s s' : ι → Buffer} {op : Op ι} (hwf : ∀ i, (s i).WF)
    (hs : step s op = some s') : op.Post s s' := by
  cases op with
  | makeRoom i len =>
    cases hs
    simpa [Op.Post] using le_space_makeRoom (hwf i)
  | absorb i j =>
    intro k
    by_cases hij : i = j
    · simp only [step, if_pos hij, Option.some.injEq] at hs
      rw [hs]
    · simp only [step, if_neg hij, Option.some.injEq] at hs
      subst hs
      obtain ⟨-, -, -, -, hx, hy⟩ := absorb_spec (hwf i) (hwf j)
      by_cases hkj : k = j
      · subst hkj; simpa using hy
      · by_cases hki : k = i
        · subst hki; simpa [hkj] using hx
        · simp [hkj, hki]
  | _ => trivial

theorem wf_step {s s' : ι → Buffer} {op : Op ι} (hwf : ∀ i, (s i).WF) (hs : step s op = some s') (i : ι) :
    (s' i).WF := by
  obtain ⟨a, -, hR⟩ := step_refines (fun i => ⟨hwf i, rfl⟩) hs
  exact (hR i).1

/-- **Buffers refine byte queues.** After every sequence of operations on any number of buffers,
all of them are well formed and hold what the same operations leave in byte queues; `makeRoom(len)`
leaves room for `len` bytes, and `absorb` leaves both suggested sizes alone. -/
theorem runs_refine {ops : List (Op ι)} {s : ι → Buffer}
    (h : Run (ofFun step) (fun _ => {}) ops s) :
    (∀ i, (s i).WF) ∧ (∃ a, Run Spec (fun _ => []) ops a ∧ ∀ i, (s i).content = a i) ∧
      ∀ (op : Op ι) s', step s op = some s' → op.Post s s' := by
  obtain ⟨a, hrun, hR⟩ := h.simulation .init fun hR hs => step_refines hR hs
  exact ⟨fun i => (hR i).1, ⟨a, hrun, fun i => (hR i).2⟩,
    fun _ _ => step_post fun i => (hR i).1⟩

/-- A run through all three growth paths, the release on empty and both branches of `absorb`. -/
def growAndAbsorb : List (Op Bool) :=
  [.setSuggestSize true 8, .append true [some 1, some 2, some 3], .consume true 2, .makeRoom true 2,
    .addSize true 1 [some 4], .append false [some 5], .absorb true false, .absorb false true,
    .makeRoom' true, .copy true false, .consume true 3]

theorem runs_refine_growAndAbsorb :
    ∃ s, Run (ofFun step) (fun _ => {}) growAndAbsorb s ∧
      (s false).content = [some 3, some 4, some 5] ∧ ∀ i, (s i).WF := by
  have heval : (growAndAbsorb.foldlM step fun _ => {}).map
      (fun s => (s false).content) = some [some 3, some 4, some 5] := by decide
  obtain ⟨s, hs, hc⟩ := Option.map_eq_some_iff.mp heval
  exact ⟨s, run_ofFun_iff.mpr hs, hc, (runs_refine (run_ofFun_iff.mpr hs)).1⟩

end NetLibrary.Buffer
