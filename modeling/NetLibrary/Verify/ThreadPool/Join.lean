import NetLibrary.Verify.SafeQueue.Wakeup
import NetLibrary.Verify.ThreadPool

/-!
# The pool comes to an end

`join` waits for the threads of the workers. Once a call of `exit` has returned nobody blocks in the
queue any more, and a worker that finds `m_exit` set finishes. So without new calls of the pool every
run ends, with all workers finished, and a worker runs at most the task that it was about to get
(`workers_finish`).
-/

namespace NetLibrary.ThreadPool
open LTS Threads

variable {τ : Type} {s t : Sys τ} {e : Event τ} {es : List (Event τ)} {q q' : SafeQueue τ}
  {pcs : List SafeQueue.Pc} {pc pc' : SafeQueue.Pc} {codes : List (Code τ)} {code code' : Code τ} {i : Nat}

/-! ## Threads and their calls -/

/-- The calls of the queue that a thread can be in. -/
def Fits : Code τ → SafeQueue.Pc → Prop
  | .pop, pc => pc ≠ .exiting
  | .caller, pc | .running _, pc => pc = .idle ∨ pc = .exiting
  | _, pc => pc = .idle

theorem fits_idle : Fits code .idle := by
  cases code with
  | pop => exact SafeQueue.Pc.noConfusion
  | caller | running => exact .inl rfl
  | unstarted | test | popped | finished => rfl

theorem fits_exiting (h : code.user = true) : Fits code .exiting := by
  cases code with
  | caller | running => exact .inr rfl
  | unstarted | test | pop | popped | finished => cases h

theorem Fits.pop_of_blocked {timed : Bool} (h : Fits code (.blocked timed)) : code = .pop := by
  cases code with
  | pop => rfl
  | caller | running =>
    rcases h with h | h
    · cases h
    · cases h
  | unstarted | test | popped | finished => cases h

structure PcInv (s : Sys τ) : Prop where
  length : s.pcs.length = s.codes.length
  fits : ∀ {i code pc}, At s.codes i code → At s.pcs i pc → Fits code pc

theorem PcInv.exists_pc (h : PcInv ⟨q, pcs, codes⟩) (hat : At codes i code) :
    ∃ pc, At pcs i pc ∧ Fits code pc := by
  have hlt : i < pcs.length := by
    have hlen : pcs.length = codes.length := h.length
    rw [hlen]
    exact (List.getElem?_eq_some_iff.mp hat).1
  exact ⟨_, List.getElem?_eq_getElem hlt, h.fits hat (List.getElem?_eq_getElem hlt)⟩

/-- A step of one thread. -/
theorem PcInv.set (h : PcInv ⟨q, pcs, codes⟩) (hfits : Fits code' pc') :
    PcInv ⟨q', pcs.set i pc', codes.set i code'⟩ := by
  refine ⟨?_, fun {j c p} hc hp => ?_⟩
  · simp only [List.length_set]
    exact h.length
  · rcases At.of_set hc with ⟨rfl, rfl⟩ | ⟨hj, hc⟩
    · rcases At.of_set hp with ⟨-, rfl⟩ | ⟨hj, -⟩
      · exact hfits
      · exact absurd rfl hj
    · rcases At.of_set hp with ⟨rfl, -⟩ | ⟨-, hp⟩
      · exact absurd rfl hj
      · exact h.fits hc hp

theorem PcInv.set_code (h : PcInv ⟨q, pcs, codes⟩) (hpc : At pcs i pc) (hfits : Fits code' pc) :
    PcInv ⟨q', pcs, codes.set i code'⟩ := by
  have hset : pcs.set i pc = pcs := by
    obtain ⟨hi, rfl⟩ := List.getElem?_eq_some_iff.mp hpc
    exact List.set_getElem_self hi
  have hinv : PcInv ⟨q', pcs.set i pc, codes.set i code'⟩ := h.set hfits
  rwa [hset] at hinv

theorem PcInv.set_pc (h : PcInv ⟨q, pcs, codes⟩) (hcode : At codes i code) (hfits : Fits code pc') :
    PcInv ⟨q', pcs.set i pc', codes⟩ := by
  have hset : codes.set i code = codes := by
    obtain ⟨hi, rfl⟩ := List.getElem?_eq_some_iff.mp hcode
    exact List.set_getElem_self hi
  have hinv : PcInv ⟨q', pcs.set i pc', codes.set i code⟩ := h.set hfits
  rwa [hset] at hinv

/-- Only a thread that waits in the queue is notified. -/
theorem PcInv.notifyOne {pcs' : List SafeQueue.Pc} (h : PcInv ⟨q, pcs, codes⟩)
    (hnotify : SafeQueue.NotifyOne pcs pcs') : PcInv ⟨q', pcs', codes⟩ := by
  cases hnotify with
  | @wake i timed hblocked =>
    have hlt : i < codes.length := by
      have hlen : pcs.length = codes.length := h.length
      rw [← hlen]
      exact (List.getElem?_eq_some_iff.mp hblocked).1
    have hcode : At codes i codes[i] := List.getElem?_eq_getElem hlt
    have hpop := (h.fits hcode hblocked).pop_of_blocked
    refine h.set_pc hcode ?_
    rw [hpop]
    exact SafeQueue.Pc.noConfusion
  | none => exact ⟨h.length, h.fits⟩

theorem PcInv.notifyAll (h : PcInv ⟨q, pcs, codes⟩) : PcInv ⟨q, SafeQueue.notifyAll pcs, codes⟩ := by
  refine ⟨?_, fun {j c p} hc hp => ?_⟩
  · simp only [SafeQueue.notifyAll, List.length_map]
    exact h.length
  · rw [At, SafeQueue.notifyAll, List.getElem?_map, Option.map_eq_some_iff] at hp
    obtain ⟨p₀, hp₀, rfl⟩ := hp
    have hfits := h.fits hc hp₀
    cases p₀ with
    | blocked =>
      rw [hfits.pop_of_blocked]
      exact SafeQueue.Pc.noConfusion
    | idle | woken | exiting => exact hfits

theorem PcInv.step (h : PcInv s) (hs : Step s e t) : PcInv t := by
  cases hs with
  | start hcode | testExited hcode | testOpen hcode =>
    obtain ⟨pc, hpc, hfits⟩ := h.exists_pc hcode
    obtain rfl : pc = .idle := hfits
    exact h.set_code hpc fits_idle
  | run hcode =>
    obtain ⟨pc, hpc, hfits⟩ := h.exists_pc hcode
    obtain rfl : pc = .idle := hfits
    exact h.set_code hpc fits_idle
  | popNow _ hidle | ran _ hidle => exact h.set_code hidle fits_idle
  | block hcode | unblock hcode | blockAgain hcode => exact h.set_pc hcode SafeQueue.Pc.noConfusion
  | popWoken => exact h.set fits_idle
  | addTask _ _ _ _ hnotify => exact h.notifyOne hnotify
  | addTaskFail | taskSize => exact ⟨h.length, h.fits⟩
  | exitStore hcode huser => exact h.set_pc hcode (fits_exiting huser)
  | exitNotify hcode => exact h.notifyAll.set_pc hcode fits_idle

theorem PcInv.init {threads callers : Nat} {taskCapacity : Int} :
    PcInv (.init τ threads taskCapacity callers) := by
  refine ⟨by simp [Sys.init], fun {i code pc} _ hpc => ?_⟩
  obtain rfl : pc = .idle := List.eq_of_mem_replicate hpc.mem
  exact fits_idle

/-! ## What is left of a worker after `exit` -/

/-- The steps that a worker still takes. -/
def weight : Code τ → Nat
  | .caller | .finished => 0
  | .test => 1
  | .running _ | .unstarted => 2
  | .popped _ => 3
  | .pop => 4

/-- A call of `exit` is in progress. -/
def isExiting : SafeQueue.Pc → Bool
  | .exiting => true
  | _ => false

/-- The steps of the workers and of the calls of `exit` that are in progress. -/
def Sys.left (s : Sys τ) : Nat := total weight s.codes + s.pcs.countP isExiting

/-- A new call of the pool. -/
def Event.Calls : Event τ → Prop
  | .queue (.push _ _) | .queue (.size _) | .queue .exitStore => True
  | _ => False

/-- A worker that may still get a task, or has one that it has not called. -/
def Code.waiting : Code τ → Bool
  | .pop | .popped _ => true
  | _ => false

theorem notifyAll_quiet (h : ∀ pc ∈ pcs, pc.isBlocked = false) : SafeQueue.notifyAll pcs = pcs := by
  rw [SafeQueue.notifyAll]
  refine (List.map_congr_left fun pc hpc => ?_).trans (List.map_id pcs)
  cases pc with
  | blocked => cases h _ hpc
  | idle | woken | exiting => rfl

theorem weight_set (hat : At codes i code) (hlt : weight code' < weight code) :
    total weight (codes.set i code') < total weight codes := by
  have htotal : total weight (codes.set i code') + weight code = total weight codes + weight code' := hat.total_set
  omega

theorem weight_next {r : Option τ} : weight (.next r) < weight (.pop : Code τ) := by
  cases r with
  | none | some => exact of_decide_eq_true rfl

/-- Once `exit` has returned, every step of a worker is one less to go. -/
theorem left_lt (hquiet : SafeQueue.Quiet s.queue) (hno : ¬e.Calls) (hs : Step s e t) : t.left < s.left := by
  have hexit : s.tasks.exit = true := hquiet.1
  have hfree : ∀ pc ∈ s.pcs, pc.isBlocked = false := hquiet.2
  cases hs with
  | start hat | testExited hat | run hat | ran hat =>
    exact Nat.add_lt_add_right (weight_set hat (Nat.lt_succ_self _)) _
  | testOpen _ hopen =>
    rw [hopen] at hexit
    cases hexit
  | popNow hat => exact Nat.add_lt_add_right (weight_set hat weight_next) _
  | block _ _ hwait =>
    rw [(SafeQueue.waitReady_some hwait).2] at hexit
    cases hexit
  | unblock _ hblocked => cases hfree _ hblocked.mem
  | blockAgain _ _ hagain =>
    rw [(SafeQueue.waitsAgain_true hagain).2] at hexit
    cases hexit
  | popWoken hat hwoken =>
    have hcount := hwoken.countP_set (b := .idle) (p := isExiting)
    exact Nat.add_lt_add_of_lt_of_le (weight_set hat weight_next) (Nat.le_of_eq hcount)
  | addTask | addTaskFail | taskSize | exitStore => exact absurd trivial hno
  | exitNotify _ _ hexiting =>
    have hcount := hexiting.countP_set (b := .idle) (p := isExiting)
    simp only [Sys.left, notifyAll_quiet hfree]
    exact Nat.add_lt_add_left (Nat.lt_of_succ_le (Nat.le_of_eq hcount)) _

/-- A worker gets at most the task that it is waiting for. -/
theorem started_le (hquiet : SafeQueue.Quiet s.queue) (hno : ¬e.Calls) (hs : Step s e t) :
    t.codes.countP Code.waiting + (if e.started.isSome then 1 else 0) ≤ s.codes.countP Code.waiting := by
  have hset : ∀ {codes : List (Code τ)} {i code}, At codes i code → ∀ code',
      (codes.set i code').countP Code.waiting + (if code.waiting then 1 else 0) =
        codes.countP Code.waiting + (if code'.waiting then 1 else 0) := fun hat _ => hat.countP_set
  have hpop : ∀ {codes : List (Code τ)} {i r}, At codes i .pop →
      (codes.set i (.next r)).countP Code.waiting ≤ codes.countP Code.waiting := by
    intro codes i r hat
    have hcount : (codes.set i (.next r)).countP Code.waiting + 1 =
        codes.countP Code.waiting + (if (Code.next r).waiting then 1 else 0) := hset hat (.next r)
    have hle : (if (Code.next r).waiting then 1 else 0) ≤ 1 := by
      split
      · exact Nat.le_refl 1
      · exact Nat.zero_le 1
    omega
  cases hs with
  | start hat | testExited hat | ran hat =>
    have hcount := hset hat
    exact Nat.le_of_eq (hcount _)
  | run hat => exact Nat.le_of_eq (hset hat _)
  | testOpen _ hopen =>
    have hexit := hquiet.1
    rw [Sys.queue, hopen] at hexit
    cases hexit
  | popNow hat | popWoken hat => exact hpop hat
  | block | unblock | blockAgain | exitNotify => exact Nat.le_refl _
  | addTask | addTaskFail | taskSize | exitStore => exact absurd trivial hno

/-- As long as a worker has not finished there is a step to take. -/
theorem exists_step (h : PcInv s) (hquiet : SafeQueue.Quiet s.queue) (hcode : code ∈ s.codes)
    (hcaller : code ≠ .caller) (hfinished : code ≠ .finished) : ∃ e t, Step s e t ∧ ¬e.Calls := by
  obtain ⟨q, pcs, codes⟩ := s
  obtain ⟨hexit, hfree⟩ := hquiet
  have hexit : q.exit = true := hexit
  obtain ⟨i, hat⟩ := List.mem_iff_getElem?.mp hcode
  have hat : At codes i code := hat
  obtain ⟨pc, hpc, hfits⟩ := h.exists_pc hat
  obtain ⟨r, q', hpop⟩ : ∃ r q', q.popFront = (r, q') := ⟨_, _, rfl⟩
  have hwait : q.waitReady SafeQueue.waitInfinite = none := by simp [SafeQueue.waitReady, hexit]
  have hagain : ∀ {timed : Bool}, q.waitsAgain timed false = false := by
    intro timed
    cases timed with
    | true | false => simp [SafeQueue.waitsAgain, hexit]
  cases code with
  | caller => exact absurd rfl hcaller
  | finished => exact absurd rfl hfinished
  | unstarted => exact ⟨_, _, .start hat, not_false⟩
  | test => exact ⟨_, _, .testExited hat hexit, not_false⟩
  | popped => exact ⟨_, _, .run hat, not_false⟩
  | pop =>
    cases pc with
    | idle => exact ⟨_, _, .popNow hat hpc hwait hpop, not_false⟩
    | blocked => cases hfree _ hpc.mem
    | woken => exact ⟨_, _, .popWoken hat hpc hagain hpop, not_false⟩
    | exiting => exact absurd rfl hfits
  | running =>
    rcases hfits with rfl | rfl
    · exact ⟨_, _, .ran hat hpc, not_false⟩
    · exact ⟨_, _, .exitNotify hat rfl hpc, not_false⟩

/-- A step of the pool keeps the queue quiet. -/
theorem quiet_step (hquiet : SafeQueue.Quiet s.queue) (hs : Step s e t) : SafeQueue.Quiet t.queue := by
  rcases hs.queue with ⟨e', -, hs⟩ | ⟨-, heq⟩
  · exact hquiet.step hs
  · rw [heq]
    exact hquiet

/-- **The workers finish.** Once a call of `exit` has returned and nobody calls the pool any more, every order
of steps comes to an end, there all workers have finished, and on the way the workers have called at most one
task for each of them that was waiting for one or had one. Every task that is called returns. -/
theorem workers_finish {threads callers : Nat} {taskCapacity : Int}
    (h : Run Step (.init τ threads taskCapacity callers) es s) (hexit : .queue .exitReturn ∈ es) :
    Terminates (guarded (fun _ e => ¬e.Calls) Step) s ∧
    ∀ es' t, Run (guarded (fun _ e => ¬e.Calls) Step) s es' t →
      (started es').length ≤ s.codes.countP Code.waiting ∧
      ((∀ e u, ¬guarded (fun _ e => ¬Event.Calls e) Step t e u) →
        ∀ code ∈ t.codes, code = .caller ∨ code = .finished) := by
  have hquiet : SafeQueue.Quiet s.queue :=
    SafeQueue.run_quiet (run_queue h) (List.mem_filterMap.mpr ⟨_, hexit, rfl⟩)
  have hpcs : PcInv s := h.invariant .init .step
  refine ⟨?_, fun es' t hrun => ?_⟩
  · refine terminates_of_measure Nat.lt_wfRel.wf (I := fun s => SafeQueue.Quiet s.queue) Sys.left hquiet ?_
    exact fun hq hs => ⟨quiet_step hq hs.2, left_lt hq hs.1 hs.2⟩
  · have hq : SafeQueue.Quiet t.queue :=
      hrun.invariant (I := fun t => SafeQueue.Quiet t.queue) hquiet fun hI hs => quiet_step hI hs.2
    have hinv : PcInv t := hrun.invariant hpcs fun hI hs => hI.step hs.2
    have hle := hrun.countP_le (I := fun s => SafeQueue.Quiet s.queue) (fun s => s.codes.countP Code.waiting)
      hquiet fun hI hs => ⟨quiet_step hI hs.2, started_le hI hs.1 hs.2⟩
    refine ⟨?_, fun hstuck code hcode => ?_⟩
    · rw [started, List.length_filterMap_eq_countP]
      exact Nat.le_trans (Nat.le_add_right _ _) hle
    by_contra hnot
    obtain ⟨hcaller, hfinished⟩ := not_or.mp hnot
    obtain ⟨e, u, hs, hno⟩ := exists_step hinv hq hcode hcaller hfinished
    exact hstuck e u ⟨hno, hs⟩

/-- The only worker is in `pop_wait` when `exit` is called. -/
theorem workers_finish_blocked : ∃ es t, Run (guarded (fun _ e => ¬e.Calls) Step)
      (⟨⟨[], 2, true⟩, [.woken false true, .idle], [.pop, .caller]⟩ : Sys Nat) es t ∧
    (started es).length ≤ 1 ∧ ∀ code ∈ t.codes, code = .caller ∨ code = .finished := by
  have h₁ : Run Step (.init Nat 1 2 1) [.worker] ⟨⟨[], 2, false⟩, [.idle, .idle], [.test, .caller]⟩ :=
    .single (.start (i := 0) rfl)
  have h₂ := h₁.snoc (.testOpen (i := 0) rfl rfl)
  have h₃ := h₂.snoc (.block (i := 0) rfl rfl rfl)
  have h₄ := h₃.snoc (.exitStore (i := 1) rfl rfl rfl)
  have h₅ := h₄.snoc (.exitNotify (i := 1) rfl rfl rfl)
  obtain ⟨hends, hlast⟩ := workers_finish h₅ (by simp)
  obtain ⟨es, t, hrun, hstuck⟩ := hends.exists_last
  obtain ⟨hstarted, hfinished⟩ := hlast es t hrun
  exact ⟨es, t, hrun, hstarted, hfinished hstuck⟩

end NetLibrary.ThreadPool
