import NetLibrary.Theory.Run
import NetLibrary.Model.Logger

/-!
# Which thread rotates

The exchange of `m_realRotate` lets one thread find an earlier period than its own, as long as the period of
`m_realRotate` only grows: then each period is raised once, by the thread that will rotate in it
(`ElectInv`). Both fail when a thread goes on with a sample of an earlier period than others have stored.
-/

namespace NetLibrary.Logger
open LTS Threads

variable {L : Logger} {s s' : Shared} {e : Event} {es : List Event} {start : Int} {n : Nat}

/-- The period of the sample with which a thread reaches the `rename`. -/
def Event.period (L : Logger) : Event → Option Int
  | .rename _ now => some (L.bucket now)
  | _ => none

/-- The periods of the rotations of a run. -/
def periods (L : Logger) (es : List Event) : List Int := es.filterMap (Event.period L)

/-- No thread exchanges a sample of an earlier period than `m_realRotate` has, and none gets past the second
check, after an exchange that gave it its own period, because `m_lastRotate` has got another one. -/
def InOrder (L : Logger) (s : Shared) : Event → Prop
  | .exchange i => ∀ now, At s.pcs i (.exchange now) → L.bucket s.realRotate ≤ L.bucket now
  | .rename i now => ∀ old, At s.pcs i (.exchanged now old) → L.bucket old = L.bucket now →
    L.bucket s.lastRotate = L.bucket now
  | _ => True

/-- The period to which a thread has raised `m_realRotate`. -/
def Pc.raised (L : Logger) : Pc → Option Int
  | .exchanged now old => if L.bucket old < L.bucket now then some (L.bucket now) else none
  | _ => none

/-- The periods in which a thread has rotated or may still do so. -/
def claimed (L : Logger) (es : List Event) (s : Shared) : List Int :=
  periods L es ++ s.pcs.filterMap (Pc.raised L)

structure ElectInv (L : Logger) (es : List Event) (s : Shared) : Prop where
  nodup : (claimed L es s).Nodup
  le_real : ∀ k ∈ claimed L es s, k ≤ L.bucket s.realRotate
  old_le : ∀ now old, .exchanged now old ∈ s.pcs → L.bucket old ≤ L.bucket now

theorem ElectInv.init : ElectInv L [] (.init start n) := by
  have hnone : claimed L [] (.init start n) = [] := by
    rw [claimed, List.append_eq_nil_iff]
    refine ⟨rfl, List.filterMap_eq_nil_iff.mpr fun pc hpc => ?_⟩
    rw [List.eq_of_mem_replicate hpc]
    rfl
  refine ⟨hnone ▸ List.nodup_nil, fun k hk => ?_, fun now old hmem => ?_⟩
  · rw [hnone] at hk
    cases hk
  · cases List.eq_of_mem_replicate hmem

theorem periods_snoc : periods L (es ++ [e]) = periods L es ++ (e.period L).toList := by
  rw [periods, List.filterMap_append]
  cases e <;> rfl

variable {i : Nat} {a b : Pc}

/-- A thread that moves takes up or gives away what it has raised, and a rotation adds its period. -/
theorem claimed_perm (e : Event) (hat : At s.pcs i a) (hpcs : s'.pcs = s.pcs.set i b) :
    ((b.raised L).toList ++ ((e.period L).toList ++ claimed L es s)).Perm
      ((a.raised L).toList ++ claimed L (es ++ [e]) s') := by
  have hset := hat.filterMap_set (f := Pc.raised L) (b := b) rfl rfl
  simp only [claimed, periods_snoc, hpcs]
  generalize periods L es = ps, (e.period L).toList = p, (b.raised L).toList = x,
    (a.raised L).toList = y, s.pcs.filterMap (Pc.raised L) = q,
    (s.pcs.set i b).filterMap (Pc.raised L) = q' at *
  calc x ++ (p ++ (ps ++ q))
    _ |>.Perm (x ++ ((p ++ ps) ++ q)) := by rw [List.append_assoc]
    _ |>.Perm (x ++ ((ps ++ p) ++ q)) := (List.perm_append_comm.append_right q).append_left x
    _ |>.Perm ((ps ++ p) ++ (x ++ q)) := List.perm_append_comm_assoc ..
    _ |>.Perm ((ps ++ p) ++ (y ++ q')) := hset.append_left _
    _ |>.Perm (y ++ ((ps ++ p) ++ q')) := List.perm_append_comm_assoc ..

/-- A thread that has not exchanged yet, or no longer. -/
def Pc.plain : Pc → Bool
  | .exchanged _ _ => false
  | _ => true

theorem raised_plain (h : a.plain = true) : a.raised L = none := by
  cases a with
  | exchanged => cases h
  | idle | sampled | store | exchange => rfl

theorem old_le_set (h : ElectInv L es s) (hpcs : s'.pcs = s.pcs.set i b) (hb : b.plain = true) :
    ∀ now old, .exchanged now old ∈ s'.pcs → L.bucket old ≤ L.bucket now := by
  intro now old hmem
  rw [hpcs] at hmem
  exact h.old_le now old (mem_of_mem_set hmem (by rintro rfl; cases hb))

/-- A thread that raises nothing, before and after. -/
theorem ElectInv.move (h : ElectInv L es s) (hat : At s.pcs i a) (hpcs : s'.pcs = s.pcs.set i b)
    (hreal : s'.realRotate = s.realRotate) (ha : a.plain = true) (hb : b.plain = true)
    (he : e.period L = none) : ElectInv L (es ++ [e]) s' := by
  have hperm : List.Perm _ ((Pc.raised L _).toList ++ claimed L (es ++ [e]) s') :=
    claimed_perm e hat hpcs
  rw [raised_plain ha, raised_plain hb, he] at hperm
  refine ⟨hperm.nodup_iff.mp h.nodup, fun k hk => ?_, old_le_set h hpcs hb⟩
  rw [hreal]
  exact h.le_real k (hperm.mem_iff.mpr hk)

/-- An exchange with a sample that is not from an earlier period. -/
theorem ElectInv.exchange {now : Int} (h : ElectInv L es s) (hat : At s.pcs i (.exchange now))
    (hpcs : s'.pcs = s.pcs.set i (.exchanged now s.realRotate)) (hreal : s'.realRotate = now)
    (he : e.period L = none) (hle : L.bucket s.realRotate ≤ L.bucket now) :
    ElectInv L (es ++ [e]) s' := by
  have hidle : (Pc.exchange now).raised L = none := rfl
  have hperm : List.Perm _ ((Pc.raised L _).toList ++ claimed L (es ++ [e]) s') :=
    claimed_perm e hat hpcs
  rw [hidle, he] at hperm
  simp only [Option.toList_none, List.nil_append, Pc.raised] at hperm
  have hold : ∀ now' old, .exchanged now' old ∈ s'.pcs → L.bucket old ≤ L.bucket now' := by
    intro now' old hmem
    rw [hpcs] at hmem
    rcases List.mem_or_eq_of_mem_set hmem with hmem | heq
    · exact h.old_le now' old hmem
    · cases heq
      exact hle
  split at hperm
  · rename_i hlt
    refine ⟨hperm.nodup_iff.mp (List.nodup_cons.mpr ⟨fun hmem => ?_, h.nodup⟩), fun k hk => ?_, hold⟩
    · exact absurd (h.le_real _ hmem) (Int.not_le.mpr hlt)
    · rw [hreal]
      rcases List.mem_cons.mp (hperm.mem_iff.mpr hk) with rfl | hk
      · exact Int.le_refl _
      · exact Int.le_trans (h.le_real k hk) hle
  · refine ⟨hperm.nodup_iff.mp h.nodup, fun k hk => ?_, hold⟩
    rw [hreal]
    exact Int.le_trans (h.le_real k (hperm.mem_iff.mpr hk)) hle

/-- The second check: the thread gives up its period, or rotates in it. -/
theorem ElectInv.leave {now old : Int} (h : ElectInv L es s) (hat : At s.pcs i (.exchanged now old))
    (hpcs : s'.pcs = s.pcs.set i .idle) (hreal : s'.realRotate = s.realRotate)
    (he : e.period L = none ∨ (e.period L = some (L.bucket now) ∧ L.bucket old ≠ L.bucket now)) :
    ElectInv L (es ++ [e]) s' := by
  have hidle : Pc.idle.raised L = none := rfl
  have hperm : List.Perm _ ((Pc.raised L _).toList ++ claimed L (es ++ [e]) s') :=
    claimed_perm e hat hpcs
  rw [hidle] at hperm
  suffices hsub : (claimed L (es ++ [e]) s').Subperm (claimed L es s) by
    refine ⟨?_, fun k hk => ?_, old_le_set h hpcs rfl⟩
    · obtain ⟨l, hl, hsub⟩ := hsub
      exact hl.nodup_iff.mp (hsub.nodup h.nodup)
    · rw [hreal]
      exact h.le_real k (hsub.subset hk)
  rcases he with he | ⟨he, hne⟩
  · rw [he] at hperm
    exact (List.sublist_append_right _ _).subperm.trans hperm.symm.subperm
  · have hlt : L.bucket old < L.bucket now := lt_of_le_of_ne (h.old_le now old hat.mem) hne
    rw [he, Pc.raised, if_pos hlt] at hperm
    exact ((List.perm_cons _).mp hperm).symm.subperm

theorem ElectInv.step (h : ElectInv L es s) (hok : InOrder L s e) (hs : Step L s e s') :
    ElectInv L (es ++ [e]) s' := by
  cases hs with
  | sample hat | return₁ hat | pass₁ hat | store hat => exact h.move hat rfl rfl rfl rfl rfl
  | exchange hat => exact h.exchange hat rfl rfl rfl (hok _ hat)
  | return₂ hat => exact h.leave hat rfl rfl (.inl rfl)
  | rename hat hpass =>
    refine h.leave hat rfl rfl (.inr ⟨rfl, fun hsame => ?_⟩)
    exact hpass (hsame.trans (hok _ hat hsame).symm)

/-- **At most one rotation in each period**, in every run of any number of threads whose steps are all
`InOrder`. -/
theorem one_rotation (h : Run (guarded (InOrder L) (Step L)) (.init start n) es s) :
    (periods L es).Nodup := by
  have hinv : ElectInv L es s := by
    induction h with
    | nil => exact .init
    | snoc _ hs ih => exact ih.step hs.1 hs.2
  exact (List.nodup_append.mp hinv.nodup).1

theorem rotate_times {ρ : Type} {s : Sys ρ} {now : Int} :
    (L.rotate s now).lastRotate = s.lastRotate ∧ (L.rotate s now).realRotate = s.realRotate := by
  unfold rotate
  dsimp only
  split
  · exact ⟨rfl, rfl⟩
  · exact ⟨rfl, rfl⟩

/-- A thread that is alone does in its steps what `maybeRotate` does, and without a `rename` no file changes. -/
theorem exists_run_maybeRotate {ρ : Type} (s : Sys ρ) {now : Int} (hclock : s.clock ≤ now) :
    ∃ es, Run (Step L) ⟨s.lastRotate, s.realRotate, s.clock, [.idle]⟩ es
        ⟨(L.maybeRotate s now).lastRotate, (L.maybeRotate s now).realRotate, now, [.idle]⟩ ∧
      (periods L es = [L.bucket now] ∨
        (periods L es = [] ∧ (L.maybeRotate s now).files = s.files)) := by
  have hsample : Step L ⟨s.lastRotate, s.realRotate, s.clock, [.idle]⟩ (.sample 0 now)
      ⟨s.lastRotate, s.realRotate, now, [.sampled now]⟩ := .sample rfl hclock
  unfold maybeRotate
  split
  · rename_i hreturn
    exact ⟨[.sample 0 now, .check₁ 0], .cons hsample (.single (.return₁ rfl hreturn)), .inr ⟨rfl, rfl⟩⟩
  · rename_i hpass
    rw [not_or] at hpass
    have hexchange : Run (Step L) ⟨s.lastRotate, s.realRotate, s.clock, [.idle]⟩
        [.sample 0 now, .check₁ 0, .store 0, .exchange 0] ⟨now, now, now, [.exchanged now s.realRotate]⟩ :=
      .cons hsample <| .cons (.pass₁ rfl hpass.1 hpass.2) <| .cons (.store rfl) <| .single (.exchange rfl)
    dsimp only
    split
    · rename_i hreturn
      have hlast : Step L ⟨now, now, now, [.exchanged now s.realRotate]⟩ (.check₂ 0)
          ⟨now, now, now, [.idle]⟩ := .return₂ rfl hreturn
      exact ⟨_, hexchange.snoc hlast, .inr ⟨rfl, rfl⟩⟩
    · rename_i hrename
      have hlast : Step L ⟨now, now, now, [.exchanged now s.realRotate]⟩ (.rename 0 now)
          ⟨now, now, now, [.idle]⟩ := .rename rfl hrename
      rw [rotate_times.1, rotate_times.2]
      exact ⟨_, hexchange.snoc hlast, .inl rfl⟩

/-- A rotation every ten seconds. -/
def tenSeconds : Logger where
  filename := ['l']
  rotateInterval := 10

/-- Two threads that both get past the first check. The second finds the period already raised. -/
def race : List Event :=
  [.sample 0 10, .check₁ 0, .sample 1 11, .check₁ 1, .store 0, .exchange 0, .rename 0 10,
    .store 1, .exchange 1, .check₂ 1]

theorem one_rotation_race : (periods tenSeconds race).Nodup := by
  suffices hrun : Run (guarded (InOrder tenSeconds) (Step tenSeconds)) (.init 0 2) race
      ⟨11, 11, 11, [.idle, .idle]⟩ from one_rotation hrun
  refine .cons ⟨trivial, .sample rfl (by decide)⟩ <| .cons ⟨trivial, .pass₁ rfl (by decide) (by decide)⟩ <|
    .cons ⟨trivial, .sample rfl (by decide)⟩ <| .cons ⟨trivial, .pass₁ rfl (by decide) (by decide)⟩ <|
      .cons ⟨trivial, .store rfl⟩ <| .cons ⟨?_, .exchange rfl⟩ <| .cons ⟨?_, .rename rfl (by decide)⟩ <|
        .cons ⟨trivial, .store rfl⟩ <| .cons ⟨?_, .exchange rfl⟩ <| .single ⟨trivial, .return₂ rfl (by decide)⟩
  · intro now hat
    cases hat
    decide
  · intro old hat
    cases hat
    decide
  · intro now hat
    cases hat
    decide

/-- Thread 0 reads the clock before a period ends and goes on after thread 1 has rotated in the next one. -/
def stale : List Event :=
  [.sample 0 9, .sample 1 10, .check₁ 1, .store 1, .exchange 1, .rename 1 10,
    .check₁ 0, .store 0, .exchange 0, .rename 0 9,
    .sample 1 11, .check₁ 1, .store 1, .exchange 1, .rename 1 11]

theorem two_rotations : 0 < tenSeconds.rotateInterval ∧
    (∃ s, Run (Step tenSeconds) (.init 0 2) stale s) ∧ ¬(periods tenSeconds stale).Nodup := by
  refine ⟨by decide, ⟨⟨11, 11, 11, [.idle, .idle]⟩, ?_⟩, by decide⟩
  exact .cons (.sample rfl (by decide)) <| .cons (.sample rfl (by decide)) <|
    .cons (.pass₁ rfl (by decide) (by decide)) <| .cons (.store rfl) <| .cons (.exchange rfl) <|
      .cons (.rename rfl (by decide)) <| .cons (.pass₁ rfl (by decide) (by decide)) <| .cons (.store rfl) <|
        .cons (.exchange rfl) <| .cons (.rename rfl (by decide)) <| .cons (.sample rfl (by decide)) <|
          .cons (.pass₁ rfl (by decide) (by decide)) <| .cons (.store rfl) <| .cons (.exchange rfl) <|
            .single (.rename rfl (by decide))

end NetLibrary.Logger
