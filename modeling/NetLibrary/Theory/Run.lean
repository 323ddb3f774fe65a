import Mathlib.Data.List.Induction

/-!
# Runs of labelled transition systems

A system is a step relation `σ → ε → σ → Prop` between states, labelled by events. `Run step s es t`
says that the events `es`, in this order, lead from `s` to `t`. Labels carry what is observed, so a
statement about the history of a system is a statement about the list `es`.

Runs grow at the end (`Run.snoc`): an invariant that mentions the history is proved by induction on
the run, and one that does not by `Run.invariant`.
-/

namespace LTS

/-- The events `es`, in this order, lead from `s` to `t`. -/
inductive Run (step : σ → ε → σ → Prop) (s : σ) : List ε → σ → Prop
  | nil : Run step s [] s
  | snoc : Run step s es t → step t e u → Run step s (es ++ [e]) u

/-- Only the steps that meet a condition on the state before them and on their event. -/
def guarded (ok : σ → ε → Prop) (step : σ → ε → σ → Prop) (s : σ) (e : ε) (t : σ) : Prop :=
  ok s e ∧ step s e t

/-- The step relation of a partial function. -/
def ofFun (f : σ → ε → Option σ) (s : σ) (e : ε) (t : σ) : Prop := f s e = some t

/-- A history in which every event is allowed by the events before it. -/
inductive Admissible (ok : List ε → ε → Prop) : List ε → Prop
  | nil : Admissible ok []
  | snoc : Admissible ok es → ok es e → Admissible ok (es ++ [e])

variable {σ τ ε ε' : Type*} {step : σ → ε → σ → Prop} {s t u : σ} {e : ε} {es es' : List ε}

theorem Run.single (h : step s e t) : Run step s [e] t := .snoc .nil h

theorem Run.append (h : Run step s es t) (h' : Run step t es' u) : Run step s (es ++ es') u := by
  induction h' with
  | nil => simpa using h
  | snoc _ hs ih => rw [← List.append_assoc]; exact .snoc ih hs

/-- A run grows at the front as well. -/
theorem Run.cons (h : step s e t) (h' : Run step t es u) : Run step s (e :: es) u :=
  (Run.single h).append h'

/-- The last step of a run. -/
theorem run_snoc_iff : Run step s (es ++ [e]) u ↔ ∃ t, Run step s es t ∧ step t e u := by
  constructor
  · intro h
    generalize hl : es ++ [e] = l at h
    cases h with
    | nil => simp at hl
    | snoc h hs =>
      obtain ⟨rfl, he⟩ := List.append_inj' hl rfl
      cases List.singleton_inj.mp he
      exact ⟨_, h, hs⟩
  · rintro ⟨t, h, hs⟩
    exact .snoc h hs

/-- A run can be cut at any place. -/
theorem run_append_iff : Run step s (es ++ es') u ↔ ∃ t, Run step s es t ∧ Run step t es' u := by
  constructor
  · intro h
    induction es' using List.reverseRecOn generalizing u with
    | nil =>
      rw [List.append_nil] at h
      exact ⟨u, h, .nil⟩
    | append_singleton es' e ih =>
      rw [← List.append_assoc] at h
      obtain ⟨t, h, hs⟩ := run_snoc_iff.mp h
      obtain ⟨r, h, hrest⟩ := ih h
      exact ⟨r, h, hrest.snoc hs⟩
  · rintro ⟨t, h, hrest⟩
    exact h.append hrest

theorem run_nil_iff : Run step s [] t ↔ s = t := by
  constructor
  · intro h
    generalize hl : ([] : List ε) = l at h
    cases h with
    | nil => rfl
    | snoc => simp at hl
  · rintro rfl
    exact .nil

/-- The first step of a run. -/
theorem run_cons_iff : Run step s (e :: es) u ↔ ∃ t, step s e t ∧ Run step t es u := by
  constructor
  · intro h
    obtain ⟨t, hfirst, hrest⟩ := run_append_iff.mp (show Run step s ([] ++ [e] ++ es) u from h)
    obtain ⟨r, hnil, hs⟩ := run_snoc_iff.mp hfirst
    obtain rfl := run_nil_iff.mp hnil
    exact ⟨t, hs, hrest⟩
  · rintro ⟨t, hs, hrest⟩
    exact .cons hs hrest

/-- An invariant holds of every state a run reaches. -/
theorem Run.invariant {I : σ → Prop} (h : Run step s es t) (h₀ : I s)
    (hstep : ∀ {s e t}, I s → step s e t → I t) : I t := by
  induction h with
  | nil => exact h₀
  | snoc _ hs ih => exact hstep ih hs

/-- A run of a system is a run of every system with more steps. -/
theorem Run.mono {step' : σ → ε → σ → Prop} (h : Run step s es t)
    (hstep : ∀ {s e t}, step s e t → step' s e t) : Run step' s es t := by
  induction h with
  | nil => exact .nil
  | snoc _ hs ih => exact .snoc ih (hstep hs)

/-- Two conditions that agree wherever a run leads allow the same runs. -/
theorem run_guarded_iff {ok ok' : σ → ε → Prop}
    (hiff : ∀ {es t e u}, Run step s es t → step t e u → (ok t e ↔ ok' t e)) :
    Run (guarded ok step) s es t ↔ Run (guarded ok' step) s es t := by
  constructor
  · intro h
    induction h with
    | nil => exact .nil
    | snoc hrun hs ih => exact ih.snoc ⟨(hiff (hrun.mono fun hs => hs.2) hs.2).mp hs.1, hs.2⟩
  · intro h
    induction h with
    | nil => exact .nil
    | snoc hrun hs ih => exact ih.snoc ⟨(hiff (hrun.mono fun hs => hs.2) hs.2).mpr hs.1, hs.2⟩

/-- A condition on the events alone. -/
theorem run_guarded_event_iff {ok : ε → Prop} :
    Run (guarded (fun _ e => ok e) step) s es t ↔ Run step s es t ∧ ∀ e ∈ es, ok e := by
  constructor
  · intro h
    refine ⟨h.mono fun hs => hs.2, ?_⟩
    induction h with
    | nil => exact fun _ he => absurd he List.not_mem_nil
    | snoc _ hs ih =>
      intro e he
      rcases List.mem_append.mp he with he | he
      · exact ih e he
      · exact List.mem_singleton.mp he ▸ hs.1
  · rintro ⟨h, hok⟩
    induction h with
    | nil => exact .nil
    | snoc _ hs ih =>
      refine (ih fun e he => hok e (List.mem_append_left _ he)).snoc ⟨hok _ ?_, hs⟩
      exact List.mem_append_right _ (List.mem_singleton.mpr rfl)

/-- A property of steps that an invariant makes a condition on the state before them, where the condition
keeps the invariant. -/
theorem run_guarded_iff_of_invariant {I : σ → Prop} {P : σ → ε → σ → Prop} {ok : σ → ε → Prop} (h₀ : I s)
    (hstep : ∀ {s e t}, I s → ok s e → step s e t → I t)
    (hiff : ∀ {s e t}, I s → step s e t → (P s e t ↔ ok s e)) :
    Run (fun s e t => P s e t ∧ step s e t) s es t ↔ Run (guarded ok step) s es t := by
  have hinv : ∀ {es t}, Run (guarded ok step) s es t → I t := fun h =>
    h.invariant h₀ fun hI hs => hstep hI hs.1 hs.2
  constructor
  · intro h
    induction h with
    | nil => exact .nil
    | snoc _ hs ih => exact ih.snoc ⟨(hiff (hinv ih) hs.2).mp hs.1, hs.2⟩
  · intro h
    induction h with
    | nil => exact .nil
    | snoc hrun hs ih => exact ih.snoc ⟨(hiff (hinv hrun) hs.2).mpr hs.1, hs.2⟩

/-- Forward simulation, with the events of the second system read off those of the first by `f`:
when `R` relates the first states and every step can be matched, the last states are related. -/
theorem Run.simulation_map {step' : τ → ε' → τ → Prop} {R : σ → τ → Prop} {f : ε → ε'} {a : τ}
    (h : Run step s es t) (h₀ : R s a)
    (hstep : ∀ {s a e t}, R s a → step s e t → ∃ b, step' a (f e) b ∧ R t b) :
    ∃ b, Run step' a (es.map f) b ∧ R t b := by
  induction h with
  | nil => exact ⟨a, .nil, h₀⟩
  | snoc _ hs ih =>
    obtain ⟨b, hrun, hR⟩ := ih
    obtain ⟨c, hc, hR'⟩ := hstep hR hs
    rw [List.map_append]
    exact ⟨c, .snoc hrun hc, hR'⟩

/-- A run of a system in which a smaller one is embedded: each step is a step of the smaller system, with the
event `f` gives, or leaves it alone. -/
theorem Run.project {step' : τ → ε' → τ → Prop} {f : ε → Option ε'} {g : σ → τ} (h : Run step s es t)
    (hstep : ∀ {s e t}, step s e t →
      (∃ e', f e = some e' ∧ step' (g s) e' (g t)) ∨ (f e = none ∧ g t = g s)) :
    Run step' (g s) (es.filterMap f) (g t) := by
  induction h with
  | nil => exact .nil
  | @snoc es t e u _ hs ih =>
    rw [List.filterMap_append]
    rcases hstep hs with ⟨e', hf, hs'⟩ | ⟨hf, hg⟩
    · rw [List.filterMap_cons_some hf, List.filterMap_nil]
      exact ih.snoc hs'
    · rw [List.filterMap_cons_none hf, List.filterMap_nil, List.append_nil, hg]
      exact ih

/-- What comes in or is held goes out or is held, in a whole run as in each step. -/
theorem Run.conserved {ι : Type*} {inp out : ε → Option ι} (held : σ → List ι) (h : Run step s es t)
    (hstep : ∀ {s e t}, step s e t → ((inp e).toList ++ held s).Perm ((out e).toList ++ held t)) :
    (es.filterMap inp ++ held s).Perm (es.filterMap out ++ held t) := by
  have hsnoc : ∀ (f : ε → Option ι) es e, (es ++ [e]).filterMap f = es.filterMap f ++ (f e).toList := by
    intro f es e
    rw [List.filterMap_append]
    cases hf : f e with
    | none => rw [List.filterMap_cons_none hf]; rfl
    | some v => rw [List.filterMap_cons_some hf]; rfl
  induction h with
  | nil => exact .refl _
  | @snoc es t e u _ hs ih =>
    rw [hsnoc, hsnoc]
    calc es.filterMap inp ++ (inp e).toList ++ held s
      _ = es.filterMap inp ++ ((inp e).toList ++ held s) := List.append_assoc ..
      _ |>.Perm (es.filterMap inp ++ (held s ++ (inp e).toList)) := List.perm_append_comm.append_left _
      _ = es.filterMap inp ++ held s ++ (inp e).toList := (List.append_assoc ..).symm
      _ |>.Perm (es.filterMap out ++ held t ++ (inp e).toList) := ih.append_right _
      _ = es.filterMap out ++ (held t ++ (inp e).toList) := List.append_assoc ..
      _ |>.Perm (es.filterMap out ++ ((inp e).toList ++ held t)) := List.perm_append_comm.append_left _
      _ |>.Perm (es.filterMap out ++ ((out e).toList ++ held u)) := (hstep hs).append_left _
      _ = es.filterMap out ++ (out e).toList ++ held u := (List.append_assoc ..).symm

/-- Forward simulation between two systems with the same events. -/
theorem Run.simulation {step' : τ → ε → τ → Prop} {R : σ → τ → Prop} {a : τ}
    (h : Run step s es t) (h₀ : R s a)
    (hstep : ∀ {s a e t}, R s a → step s e t → ∃ b, step' a e b ∧ R t b) :
    ∃ b, Run step' a es b ∧ R t b := by
  obtain ⟨b, hrun, hR⟩ := h.simulation_map (f := id) h₀ hstep
  exact ⟨b, by simpa using hrun, hR⟩

/-- A run of a partial function is its fold over the events. -/
theorem run_ofFun_iff {f : σ → ε → Option σ} :
    Run (ofFun f) s es t ↔ es.foldlM f s = some t := by
  induction es using List.reverseRecOn generalizing t with
  | nil => simp [run_nil_iff]
  | append_singleton es e ih =>
    rw [run_snoc_iff, List.foldlM_append]
    simp only [ih, List.foldlM_cons, List.foldlM_nil, bind_pure, Option.bind_eq_bind,
      Option.bind_eq_some_iff, ofFun]

theorem run_guarded_ofFun_iff {ok : σ → ε → Prop} [∀ s e, Decidable (ok s e)] {f : σ → ε → Option σ} :
    Run (guarded ok (ofFun f)) s es t ↔
      es.foldlM (fun s e => if ok s e then f s e else none) s = some t := by
  rw [← run_ofFun_iff]
  have hstep : ∀ {s e t}, guarded ok (ofFun f) s e t ↔
      ofFun (fun s e => if ok s e then f s e else none) s e t := by
    intro s e t
    simp only [guarded, ofFun, Option.ite_none_right_eq_some]
  exact ⟨fun h => h.mono hstep.mp, fun h => h.mono hstep.mpr⟩

/-- No run from `s` goes on for ever. -/
def Terminates (step : σ → ε → σ → Prop) (s : σ) : Prop := Acc (fun t s => ∃ e, step s e t) s

/-- Under an invariant every step lowers a measure. -/
theorem terminates_of_measure {β : Type*} {lt : β → β → Prop} (hwf : WellFounded lt) {I : σ → Prop}
    (m : σ → β) (hI : I s) (hstep : ∀ {s e t}, I s → step s e t → I t ∧ lt (m t) (m s)) :
    Terminates step s := by
  induction hm : m s using hwf.induction generalizing s with
  | _ b ih =>
    apply Acc.intro
    rintro t ⟨e, hs⟩
    obtain ⟨hIt, hlt⟩ := hstep hI hs
    exact ih (m t) (hm ▸ hlt) hIt rfl

/-- Under an invariant the events of some kind use up a measure that no step raises. -/
theorem Run.countP_le {I : σ → Prop} {p : ε → Bool} (m : σ → Nat) (h : Run step s es t) (h₀ : I s)
    (hstep : ∀ {s e t}, I s → step s e t → I t ∧ m t + (if p e then 1 else 0) ≤ m s) :
    es.countP p + m t ≤ m s := by
  suffices hrun : I t ∧ es.countP p + m t ≤ m s from hrun.2
  induction h with
  | nil => exact ⟨h₀, Nat.le_of_eq (Nat.zero_add _)⟩
  | @snoc es t e u _ hs ih =>
    obtain ⟨hI, hle⟩ := ih
    obtain ⟨hI', hle'⟩ := hstep hI hs
    refine ⟨hI', ?_⟩
    rw [List.countP_append, List.countP_singleton]
    omega

/-- A run that goes on as long as it can comes to an end. -/
theorem Terminates.exists_last (h : Terminates step s) : ∃ es t, Run step s es t ∧ ∀ e u, ¬step t e u := by
  induction h with
  | intro s _ ih =>
    by_cases hlast : ∀ e u, ¬step s e u
    · exact ⟨[], s, .nil, hlast⟩
    · simp only [not_forall, not_not] at hlast
      obtain ⟨e, u, hs⟩ := hlast
      obtain ⟨es, t, hrun, ht⟩ := ih u ⟨e, hs⟩
      exact ⟨e :: es, t, .cons hs hrun, ht⟩

/-- The last event of a history. -/
theorem admissible_snoc_iff {ok : List ε → ε → Prop} :
    Admissible ok (es ++ [e]) ↔ Admissible ok es ∧ ok es e := by
  constructor
  · intro h
    generalize hl : es ++ [e] = l at h
    cases h with
    | nil => simp at hl
    | snoc h hok =>
      obtain ⟨rfl, he⟩ := List.append_inj' hl rfl
      cases List.singleton_inj.mp he
      exact ⟨h, hok⟩
  · rintro ⟨h, hok⟩
    exact .snoc h hok

end LTS
