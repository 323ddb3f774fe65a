import NetLibrary.Theory.Run

/-!
# Custody of resources

Resources are issued under names, and a name is not issued again before its resource has been released.
A resource gets a holder when it is issued, or none and then nobody will ever release it. What happens to
the holders besides is not seen here, as long as it does not change their number. A resource is accounted
for if it has been released or has exactly one holder.
-/

namespace Custody
open LTS

structure State (κ : Type*) where
  /-- The name of every resource that has been issued, and whether it has been released. -/
  issued : List (κ × Bool) := []
  /-- The number of its holders. -/
  holders : κ → Nat := fun _ => 0

inductive Event (κ : Type*)
  | issue (name : κ) (kept : Bool)
  | release (name : κ)
  | other

variable {κ : Type*}

/-- No resource of this name is in use. -/
def Unused (issued : List (κ × Bool)) (name : κ) : Prop := ∀ r ∈ issued, r.2 = false → r.1 ≠ name

/-- The resource of this name is released. -/
def release [DecidableEq κ] (name : κ) (issued : List (κ × Bool)) : List (κ × Bool) :=
  issued.map fun r => if r.1 = name then (r.1, true) else r

inductive Step [DecidableEq κ] : State κ → Event κ → State κ → Prop
  | keep {s t : State κ} {name} : Unused s.issued name → t.issued = s.issued ++ [(name, false)] →
    (∀ x, t.holders x = s.holders x + if x = name then 1 else 0) → Step s (.issue name true) t
  | lose {s t : State κ} {name} : Unused s.issued name → t.issued = s.issued ++ [(name, false)] →
    (∀ x, t.holders x = s.holders x) → Step s (.issue name false) t
  | release {s t : State κ} {name} : t.issued = release name s.issued →
    (∀ x, s.holders x = t.holders x + if x = name then 1 else 0) → Step s (.release name) t
  | other {s t : State κ} : t.issued = s.issued → (∀ x, t.holders x = s.holders x) → Step s .other t

variable {s t : State κ} {e : Event κ} {es : List (Event κ)} {name : κ}

/-- Every resource has been released or has exactly one holder. -/
def Accounted (s : State κ) : Prop := ∀ r ∈ s.issued, r.2 = true ∨ s.holders r.1 = 1

/-- There is a resource that has not been released and that nobody holds. -/
def Lost (s : State κ) : Prop := ∃ name, (name, false) ∈ s.issued ∧ s.holders name = 0

theorem Lost.not_accounted (h : Lost s) : ¬Accounted s := by
  obtain ⟨name, hmem, hnone⟩ := h
  intro hall
  rcases hall _ hmem with hreleased | hheld
  · cases hreleased
  · rw [hnone] at hheld
    cases hheld

theorem mem_release_of_ne [DecidableEq κ] {r : κ × Bool} {issued : List (κ × Bool)} (h : r ∈ issued)
    (hne : r.1 ≠ name) : r ∈ release name issued :=
  List.mem_map.mpr ⟨r, h, if_neg hne⟩

/-- A resource has one holder at most, and what is held is in use. -/
structure Inv (s : State κ) : Prop where
  single : ∀ x, s.holders x ≤ 1
  used : ∀ x, 0 < s.holders x → (x, false) ∈ s.issued

theorem Inv.init : Inv ({} : State κ) where
  single _ := Nat.zero_le _
  used _ h := absurd h (Nat.lt_irrefl 0)

/-- A name that is not in use is not held. -/
theorem Inv.unused (h : Inv s) (hunused : Unused s.issued name) : s.holders name = 0 := by
  by_contra hne
  exact hunused _ (h.used name (Nat.pos_of_ne_zero hne)) rfl rfl

variable [DecidableEq κ]

theorem Inv.step (h : Inv s) (hs : Step s e t) : Inv t := by
  cases hs with
  | @keep _ name hunused hissued hholders =>
    have hnone := h.unused hunused
    refine ⟨fun x => ?_, fun x hx => ?_⟩
    · have hsingle := h.single x
      rw [hholders]
      split
      · subst x
        omega
      · exact hsingle
    · rw [hissued]
      by_cases hx' : x = name
      · subst hx'
        exact List.mem_append_right _ (List.mem_singleton.mpr rfl)
      · rw [hholders, if_neg hx'] at hx
        exact List.mem_append_left _ (h.used x hx)
  | lose _ hissued hholders =>
    refine ⟨fun x => hholders x ▸ h.single x, fun x hx => ?_⟩
    rw [hissued]
    exact List.mem_append_left _ (h.used x (hholders x ▸ hx))
  | @release _ name hissued hholders =>
    refine ⟨fun x => ?_, fun x hx => ?_⟩
    · have hsingle := h.single x
      have hx := hholders x
      omega
    · have hsingle := h.single x
      have hmore := hholders x
      have hne : x ≠ name := by
        intro heq
        rw [if_pos heq] at hmore
        omega
      rw [hissued]
      exact mem_release_of_ne (h.used x (by omega)) hne
  | other hissued hholders =>
    refine ⟨fun x => hholders x ▸ h.single x, fun x hx => ?_⟩
    rw [hissued]
    exact h.used x (hholders x ▸ hx)

theorem run_inv (h : Run Step {} es s) : Inv s := h.invariant .init Inv.step

/-- What is lost stays lost. -/
theorem Lost.step (h : Lost s) (hs : Step s e t) : Lost t := by
  obtain ⟨x, hmem, hnone⟩ := h
  cases hs with
  | keep hunused hissued hholders =>
    refine ⟨x, hissued ▸ List.mem_append_left _ hmem, ?_⟩
    rw [hholders, if_neg (hunused _ hmem rfl), hnone]
  | lose _ hissued hholders =>
    exact ⟨x, hissued ▸ List.mem_append_left _ hmem, (hholders x).trans hnone⟩
  | @release _ name hissued hholders =>
    have hmore := hholders x
    have hne : x ≠ name := by
      intro heq
      rw [if_pos heq] at hmore
      omega
    exact ⟨x, hissued ▸ mem_release_of_ne hmem hne, by omega⟩
  | other hissued hholders => exact ⟨x, hissued ▸ hmem, (hholders x).trans hnone⟩

theorem lost_of_mem (h : Run Step {} es s) (hmem : .issue name false ∈ es) : Lost s := by
  induction h with
  | nil => cases hmem
  | snoc hrun hs ih =>
    rcases List.mem_append.mp hmem with hmem | hmem
    · exact (ih hmem).step hs
    · obtain rfl := List.mem_singleton.mp hmem
      cases hs with
      | lose hunused hissued hholders =>
        refine ⟨name, ?_, (hholders name).trans ((run_inv hrun).unused hunused)⟩
        rw [hissued]
        exact List.mem_append_right _ (List.mem_singleton.mpr rfl)

theorem Accounted.step (h : Accounted s) (hinv : Inv s) (hs : Step s e t)
    (hkept : ∀ name, e ≠ .issue name false) : Accounted t := by
  cases hs with
  | @keep _ name hunused hissued hholders =>
    intro r hr
    rw [hissued] at hr
    rcases List.mem_append.mp hr with hr | hr
    · rcases h r hr with hreleased | hheld
      · exact .inl hreleased
      · by_cases hreleased : r.2 = true
        · exact .inl hreleased
        · refine .inr ?_
          rw [hholders, if_neg (hunused r hr (Bool.eq_false_iff.mpr hreleased)), hheld]
    · obtain rfl := List.mem_singleton.mp hr
      refine .inr ?_
      rw [hholders, if_pos rfl, hinv.unused hunused]
  | lose => exact absurd rfl (hkept _)
  | @release _ name hissued hholders =>
    intro r hr
    rw [hissued] at hr
    obtain ⟨r, hmem, rfl⟩ := List.mem_map.mp hr
    split
    · exact .inl rfl
    · rename_i hne
      refine (h r hmem).imp id fun hheld => ?_
      have hmore := hholders r.1
      rw [if_neg hne] at hmore
      omega
  | other hissued hholders =>
    intro r hr
    rw [hissued] at hr
    exact (h r hr).imp id (hholders r.1).trans

/-- Every resource is accounted for exactly when each got a holder as it was issued. -/
theorem accounted_iff (h : Run Step {} es s) : Accounted s ↔ ∀ name, .issue name false ∉ es := by
  constructor
  · intro hall name hmem
    exact (lost_of_mem h hmem).not_accounted hall
  · intro hkept
    induction h with
    | nil => exact fun _ hr => absurd hr List.not_mem_nil
    | snoc hrun hs ih =>
      have hprev := ih fun name hmem => hkept name (List.mem_append_left _ hmem)
      refine hprev.step (run_inv hrun) hs fun name heq => hkept name ?_
      exact List.mem_append_right _ (List.mem_singleton.mpr heq.symm)

end Custody
