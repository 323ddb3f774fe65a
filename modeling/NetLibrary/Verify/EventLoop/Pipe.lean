import NetLibrary.Verify.EventLoop.Tasks

/-!
# The loop thread and its own wake pipe

Only the loop thread reads the pipe, and its write end is not made non-blocking, as `Channel` makes the
read end. So a `wakeup` of the loop thread that finds the pipe full never returns (`Blocked.step`). It
comes to that exactly when the loop thread calls `wakeup` while the pipe is full, or another thread
fills the pipe while the loop thread is in that call (`not_blocked_iff`).
-/

namespace NetLibrary.EventLoop
open LTS Threads

variable {τ : Type} {P n i : Nat} {taskCapacity : Int} {s s' : Sys τ} {e : Event τ}
  {es : List (Event τ)} {c : Call τ}

/-- The loop thread is in `safeCall`, `exit` or `wakeup`, and has to write its byte. -/
def Waking (s : Sys τ) : Prop := ∃ c, At s.calls 0 c ∧ c ≠ .none

/-- It waits for room in the pipe. -/
def Blocked (P : Nat) (s : Sys τ) : Prop := Waking s ∧ P ≤ s.pipe

/-- The pipe has room for the byte that the loop thread is about to write. -/
def Roomy (P : Nat) (s : Sys τ) : Event τ → Prop
  | .push i _ _ | .store i | .wakeup i => i = 0 → s.pipe < P
  | .write i => i ≠ 0 → Waking s → s.pipe + 1 < P
  | _ => True

/-! ## One step -/

theorem not_waking (h : At s.calls 0 .none) : ¬Waking s := by
  rintro ⟨c, hc, hne⟩
  exact hne (Option.some.inj (hc.symm.trans h))

/-- The steps of the other threads do not bear on what the loop thread has called. -/
theorem waking_congr (hcalls : s'.calls[0]? = s.calls[0]?) : Waking s' ↔ Waking s := by
  unfold Waking At
  rw [hcalls]

theorem waking_set_self (hturn : s.userTurn 0) (hc : c ≠ .none) (hcalls : s'.calls = s.calls.set 0 c) :
    Waking s' := by
  refine ⟨c, ?_, hc⟩
  rw [hcalls]
  exact List.getElem?_set_self (List.getElem?_eq_some_iff.mp hturn.1).1

theorem not_blocked_iff_lt (h : Waking s) : ¬Blocked P s ↔ s.pipe < P := by
  rw [Blocked, not_and, Nat.not_le]
  exact forall_prop_of_true h

/-- The first section of a call. -/
theorem not_blocked_call (hturn : s.userTurn i) (hc : c ≠ .none) (hcalls : s'.calls = s.calls.set i c)
    (hpipe : s'.pipe = s.pipe) (h : ¬Blocked P s) : ¬Blocked P s' ↔ (i = 0 → s.pipe < P) := by
  by_cases hi : i = 0
  · subst hi
    rw [not_blocked_iff_lt (waking_set_self hturn hc hcalls), hpipe, forall_prop_of_true rfl]
  · refine iff_of_true ?_ fun h0 => absurd h0 hi
    rwa [Blocked, waking_congr (hcalls ▸ List.getElem?_set_ne hi), hpipe]

/-- A step after which the loop thread is not blocked is one that meets the condition. -/
theorem Step.not_blocked_iff_roomy (h : Step P s e s') (hs : ¬Blocked P s) :
    ¬Blocked P s' ↔ Roomy P s e := by
  cases h with
  | push hturn => exact not_blocked_call (c := .safeCall _ _) hturn nofun rfl rfl hs
  | store hturn => exact not_blocked_call (c := .exit) hturn nofun rfl rfl hs
  | wakeup hturn => exact not_blocked_call (c := .wakeup) hturn nofun rfl rfl hs
  | @write i c hc hne hroom =>
    by_cases hi : i = 0
    · subst hi
      refine iff_of_true (fun h => not_waking ?_ h.1) fun h0 => absurd rfl h0
      exact List.getElem?_set_self (List.getElem?_eq_some_iff.mp hc).1
    · rw [Blocked, waking_congr (List.getElem?_set_ne hi), not_and, Nat.not_le]
      show (Waking s → s.pipe + 1 < P) ↔ (i ≠ 0 → Waking s → s.pipe + 1 < P)
      exact ⟨fun h _ => h, fun h => h hi⟩
  | read hidle => exact iff_of_true (fun h => not_waking hidle h.1) trivial
  | loop | test | poll | pop | popNone | taskEnd | dispatchEnd | timersEnd => exact iff_of_true hs trivial

/-- Nobody else reads the pipe, so a loop thread that is blocked stays blocked. -/
theorem Blocked.step (h : Blocked P s) (hs : Step P s e s') : Blocked P s' := by
  obtain ⟨hwaking, hfull⟩ := h
  cases hs with
  | push hturn | store hturn | wakeup hturn =>
    have hi : _ ≠ 0 := fun hi => not_waking (hi ▸ hturn.1) hwaking
    exact ⟨(waking_congr (List.getElem?_set_ne hi)).mpr hwaking, hfull⟩
  | write _ _ hroom => exact absurd hroom (Nat.not_lt.mpr hfull)
  | read hidle => exact absurd hwaking (not_waking hidle)
  | loop | test | poll | pop | popNone | taskEnd | dispatchEnd | timersEnd => exact ⟨hwaking, hfull⟩

/-! ## Runs -/

theorem not_blocked_init : ¬Blocked P (Sys.init τ taskCapacity n) := by
  have hidle : At (Sys.init τ taskCapacity n).calls 0 .none := rfl
  exact fun h => not_waking hidle h.1

/-- **When the loop thread blocks itself.** In every interleaving, for every pipe and every number of
calls, the loop thread is not blocked in `wakeup` exactly when all steps before have met `Roomy`. Once it
is blocked it remains so. -/
theorem not_blocked_iff (h : Run (Step P) (Sys.init τ taskCapacity n) es s) :
    (¬Blocked P s ↔ Run (guarded (Roomy P) (Step P)) (Sys.init τ taskCapacity n) es s) ∧
    (Blocked P s → ∀ es' s', Run (Step P) s es' s' → Blocked P s') := by
  refine ⟨⟨fun hs => ?_, fun hroomy => ?_⟩, fun hs es' s' hrest => ?_⟩
  · induction h with
    | nil => exact .nil
    | snoc _ hstep ih =>
      have hprev : ¬Blocked P _ := fun hprev => hs (hprev.step hstep)
      exact .snoc (ih hprev) ⟨(hstep.not_blocked_iff_roomy hprev).mp hs, hstep⟩
  · exact hroomy.invariant (I := fun s => ¬Blocked P s) not_blocked_init fun hprev hstep =>
      (hstep.2.not_blocked_iff_roomy hprev).mpr hstep.1
  · exact hrest.invariant (I := Blocked P) hs Blocked.step

/-- `k` calls of `wakeup` by a handler that the loop thread runs. -/
def wakeups (τ : Type) (k : Nat) : List (Event τ) := (List.replicate k [.wakeup 0, .write 0]).flatten

theorem run_wakeups {k : Nat} (h : s.userTurn 0) (hroom : s.pipe + k ≤ P) :
    ∃ t, Run (Step P) s (wakeups τ k) t ∧ t.userTurn 0 ∧ t.pipe = s.pipe + k := by
  induction k generalizing s with
  | zero => exact ⟨s, .nil, h, rfl⟩
  | succ k ih =>
    have hlen : 0 < s.calls.length := (List.getElem?_eq_some_iff.mp h.1).1
    have hlt : s.pipe < P := by omega
    have hcall : Step P s (.wakeup 0) { s with calls := s.calls.set 0 .wakeup } := .wakeup h
    have hwrite : Step P { s with calls := s.calls.set 0 .wakeup } (.write 0)
        { s with pipe := s.pipe + 1, calls := (s.calls.set 0 .wakeup).set 0 .none } :=
      .write (List.getElem?_set_self hlen) nofun hlt
    have hturn : ({ s with pipe := s.pipe + 1, calls := (s.calls.set 0 .wakeup).set 0 .none } :
        Sys τ).userTurn 0 := by
      refine ⟨List.getElem?_set_self ?_, h.2⟩
      rwa [List.length_set]
    obtain ⟨t, hrun, ht, hpipe⟩ := ih hturn (by show s.pipe + 1 + k ≤ P; omega)
    refine ⟨t, .cons hcall (.cons hwrite hrun), ht, ?_⟩
    rw [hpipe]
    show s.pipe + 1 + k = s.pipe + (k + 1)
    omega

/-- For every pipe there is a run in which a channel handler that calls `wakeup` once too often blocks the
loop thread. -/
theorem blocked_of_wakeups : ∃ s, Run (Step P) (Sys.init τ taskCapacity n)
    (.loop :: .test :: .poll false :: (wakeups τ P ++ [.wakeup 0])) s ∧ Blocked P s := by
  have hinit : At (Sys.init τ taskCapacity n).calls 0 .none := rfl
  obtain ⟨t, hrun, ht, hpipe⟩ := run_wakeups (k := P)
    (s := { Sys.init τ taskCapacity n with pc := .dispatch false false }) ⟨hinit, fun _ => rfl⟩
    (Nat.le_of_eq (Nat.zero_add P))
  refine ⟨{ t with calls := t.calls.set 0 .wakeup }, ?run, ?full⟩
  case run =>
    refine .cons (.loop hinit rfl) ?_
    refine .cons (.test rfl) ?_
    refine .cons (.poll rfl nofun) ?_
    exact hrun.snoc (.wakeup ht)
  case full =>
    refine ⟨waking_set_self (c := .wakeup) ht nofun rfl, ?_⟩
    show P ≤ t.pipe
    rw [hpipe]
    exact Nat.le_add_left P _

/-- A pipe of 64 KiB, and a first byte that the loop thread is about to write. -/
theorem not_blocked_iff_wakeup : ∃ s, Run (Step 65536) (Sys.init Nat 0 0) [.wakeup 0] s ∧ Waking s ∧
    ¬Blocked 65536 s := by
  have hrun : Run (guarded (Roomy 65536) (Step 65536)) (Sys.init Nat 0 0) [.wakeup 0]
      { Sys.init Nat 0 0 with calls := [.wakeup] } := .single ⟨fun _ => by decide, .wakeup ⟨rfl, fun _ => rfl⟩⟩
  have hplain := hrun.mono And.right
  exact ⟨_, hplain, ⟨.wakeup, rfl, nofun⟩, (not_blocked_iff hplain).1.mpr hrun⟩

theorem blocks : ¬∀ (P n : Nat) (taskCapacity : Int) (es : List (Event Nat)) (s : Sys Nat), 0 < P →
    Run (Step P) (Sys.init Nat taskCapacity n) es s → ¬Blocked P s := by
  intro h
  obtain ⟨s, hrun, hblocked⟩ : ∃ s, Run (Step 65536) (Sys.init Nat 0 0)
      (.loop :: .test :: .poll false :: (wakeups Nat 65536 ++ [.wakeup 0])) s ∧ Blocked 65536 s :=
    blocked_of_wakeups
  exact h 65536 0 0 _ s (by decide) hrun hblocked

end NetLibrary.EventLoop
