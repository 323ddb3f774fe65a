import NetLibrary.Verify.EventLoop.Tasks

/-!
# What `loop` has executed when it returns

`exit` may be seen at any test of `m_exit`, and then one `loop_once(0)` follows. It is enough: a byte
that was in the pipe when `m_exit` was set is still there for that last poll, unless a drain has read
it, and a drain goes on until the queue is empty.
-/

namespace NetLibrary.EventLoop
open LTS Threads

variable {τ : Type} {P n i k : Nat} {taskCapacity : Int} {s s' : Sys τ} {e : Event τ}
  {es a b c : List (Event τ)} {v : τ}

/-- `epoll_wait` is not interrupted, and reports the wake pipe when it holds bytes. -/
def Reports (s : Sys τ) : Event τ → Prop
  | .poll wake => wake = decide (0 < s.pipe)
  | _ => True

/-! ## The last `loop_once` -/

/-- The loop thread has seen `m_exit` set. -/
def Pc.last : Pc τ → Prop
  | .poll last | .dispatch last _ | .drain last | .task last _ | .timers last => last = true
  | .returned => True
  | .before | .test => False

theorem Step.exit_of_last (h : Step P s e s') (hlast : s.pc.last → s.exit = true)
    (hpc : s'.pc.last) : s'.exit = true := by
  cases h with
  | push | wakeup | write => exact hlast hpc
  | store => rfl
  | loop => exact hpc.elim
  | test => exact hpc
  | poll heq | pop heq | popNone heq | taskEnd _ heq | dispatchEnd _ heq =>
    apply hlast
    rw [heq]
    exact hpc
  | @read last _ heq =>
    apply hlast
    rw [heq]
    by_cases hempty : s.pipe = 0
    · rwa [if_pos hempty] at hpc
    · rwa [if_neg hempty] at hpc
  | @timersEnd last _ heq =>
    apply hlast
    rw [heq]
    cases last with
    | true => rfl
    | false => exact hpc.elim

/-- `m_exit` is set by `exit` alone. -/
theorem Step.store_of_exit (h : Step P s e s') (hexit : s'.exit = true) :
    s.exit = true ∨ ∃ i, e = .store i := by
  cases h with
  | store => exact .inr ⟨_, rfl⟩
  | push | wakeup | write | loop | test | poll | read | pop | popNone | taskEnd | dispatchEnd
  | timersEnd => exact .inl hexit

theorem store_of_exit (h : Run (Step P) (Sys.init τ taskCapacity n) es s) (hexit : s.exit = true) :
    ∃ i, .store i ∈ es := by
  induction h with
  | nil => cases hexit
  | snoc _ hs ih =>
    rcases hs.store_of_exit hexit with hexit | ⟨i, rfl⟩
    · obtain ⟨i, hi⟩ := ih hexit
      exact ⟨i, List.mem_append_left _ hi⟩
    · exact ⟨i, List.mem_append_right _ (List.mem_singleton_self _)⟩

/-- Before `exit` is called the last `loop_once` has not begun. -/
theorem not_last (h : Run (Step P) (Sys.init τ taskCapacity n) es s) (hes : ∀ i, .store i ∉ es) :
    ¬s.pc.last := by
  intro hlast
  have hexit : s.pc.last → s.exit = true :=
    h.invariant (I := fun s => s.pc.last → s.exit = true) (fun h => h.elim) fun h hs => hs.exit_of_last h
  obtain ⟨i, hi⟩ := store_of_exit h (hexit hlast)
  exact hes i hi

/-! ## The byte in the pipe -/

/-- The loop thread is about to read the pipe because `epoll_wait` has reported it. -/
def Pc.wakes : Pc τ → Prop
  | .dispatch _ true => True
  | _ => False

/-- Nobody else takes the byte away. -/
theorem Step.wakes (h : Step P s e s') (hwakes : s.pc.wakes → 0 < s.pipe) (hpc : s'.pc.wakes) :
    0 < s'.pipe := by
  cases h with
  | push | store | wakeup => exact hwakes hpc
  | write => exact Nat.succ_pos _
  | @poll last wake _ hwake =>
    cases wake with
    | true => exact hwake rfl
    | false => exact hpc.elim
  | read =>
    by_cases hempty : s.pipe = 0
    · simp only [if_pos hempty] at hpc
      exact hpc.elim
    · simp only [if_neg hempty] at hpc
      exact hpc.elim
  | timersEnd =>
    split at hpc
    · exact hpc.elim
    · exact hpc.elim
  | loop | test | pop | popNone | taskEnd | dispatchEnd => exact hpc.elim

theorem run_wakes (h : Run (Step P) (Sys.init τ taskCapacity n) es s) (hpc : s.pc.wakes) :
    0 < s.pipe :=
  h.invariant (I := fun s => s.pc.wakes → 0 < s.pipe) (fun h => h.elim) (fun h hs => hs.wakes h) hpc

/-- A task that is in the queue before the last `loop_once` is taken `out` in time. -/
def Due (out : Prop) (s : Sys τ) : Prop :=
  match s.pc with
  | .timers true | .returned => out
  | .dispatch true wake => out ∨ wake = true
  | .drain _ | .task _ _ => True
  | .before | .test | .poll _ | .dispatch false _ | .timers false => out ∨ 0 < s.pipe

/-- Before the last `loop_once` a byte is enough. -/
theorem due_of_pipe {out : Prop} (hpipe : 0 < s.pipe) (hlast : ¬s.pc.last) : Due out s := by
  unfold Due
  cases hpc : s.pc with
  | before | test | poll => exact .inr hpipe
  | drain | task => trivial
  | returned =>
    rw [hpc] at hlast
    exact absurd trivial hlast
  | dispatch last | timers last =>
    rw [hpc] at hlast
    cases last with
    | true => exact absurd rfl hlast
    | false => exact .inr hpipe

theorem Due.mono {out out' : Prop} (h : Due out s) (hpc : s'.pc = s.pc)
    (hpipe : 0 < s.pipe → 0 < s'.pipe) (hout : out → out') : Due out' s' := by
  unfold Due at h ⊢
  rw [hpc]
  split at h
  · exact hout h
  · exact hout h
  · exact h.imp_left hout
  · trivial
  · trivial
  all_goals exact h.imp hout hpipe

/-- A drain that ends has emptied the queue, and the last poll reports a byte that is in the pipe. -/
theorem Due.step {out out' : Prop} (h : Due out s) (hs : guarded Reports (Step P) s e s')
    (hwakes : s.pc.wakes → 0 < s.pipe) (hout : out → out') (hempty : s'.tasks.items = [] → out') :
    Due out' s' := by
  obtain ⟨hreports, hs⟩ := hs
  unfold Due at h
  cases hs with
  | push | store | wakeup => exact Due.mono h rfl (fun hpipe => hpipe) hout
  | write => exact Due.mono h rfl (fun _ => Nat.succ_pos _) hout
  | loop _ hpc | test hpc =>
    rw [hpc] at h
    exact h.imp_left hout
  | @poll last wake hpc =>
    rw [hpc] at h
    cases last with
    | true => exact h.imp hout fun hpipe => hreports.trans (decide_eq_true hpipe)
    | false => exact h.imp_left hout
  | read _ hpc =>
    have hpipe : s.pipe ≠ 0 := by
      rw [hpc] at hwakes
      exact Nat.ne_of_gt (hwakes trivial)
    simp only [Due, if_neg hpipe]
  | pop | taskEnd => trivial
  | @popNone last _ _ hpop =>
    have hout' : out' := by
      obtain ⟨hitems, rfl⟩ := SafeQueue.popFront_none hpop
      exact hempty hitems
    cases last with
    | true => exact .inl hout'
    | false => exact .inl hout'
  | @dispatchEnd last _ hpc =>
    rw [hpc] at h
    cases last with
    | true => exact hout (h.resolve_right Bool.false_ne_true)
    | false => exact h.imp_left hout
  | @timersEnd last _ hpc =>
    rw [hpc] at h
    cases last with
    | true => exact hout h
    | false => exact h.imp_left hout

/-! ## What has been executed -/

theorem popped_eq_finished (h : Run (Step P) (Sys.init τ taskCapacity n) es s)
    (hret : s.pc = .returned) : popped es = finished es := by
  simpa [hret, Pc.running] using popped_eq h

/-- The `k`-th of the accepted tasks has been taken out of the queue. -/
def Out (k : Nat) (es : List (Event τ)) : Prop := k < (popped es).length

/-- From a state in which the task is due, a run keeps it due. -/
theorem run_due (h : Run (Step P) (Sys.init τ taskCapacity n) a s) (hk : k < (accepted a).length)
    (hdue : Due (Out k a) s) (hrest : Run (guarded Reports (Step P)) s c s') :
    Due (Out k (a ++ c)) s' := by
  induction hrest with
  | nil => rwa [List.append_nil]
  | @snoc c t e u hrest hs ih =>
    have hrun := h.append (hrest.mono fun hs => hs.2)
    refine ih.step hs (run_wakes hrun) (fun hout => ?_) fun hitems => ?_
    · rw [Out, ← List.append_assoc, popped_append, List.length_append]
      exact Nat.lt_add_right _ hout
    · have hall := conserved (hrun.snoc hs.2)
      rw [hitems, List.append_nil, List.append_assoc] at hall
      rw [Out, ← hall]
      show k < (accepted _).length
      rw [accepted_append, List.length_append]
      exact Nat.lt_add_right _ hk

/-- **`exit` drains earlier work.** When a `safeCall` has had its task accepted and has returned before
`exit` was first called, then in every interleaving its task has been executed, in its turn, when `loop`
returns. -/
theorem finished_of_returned
    (h : Run (guarded Reports (Step P)) (Sys.init τ taskCapacity n)
      (a ++ .push i v true :: b ++ .write i :: c) s)
    (hstore : ∀ j, .store j ∉ a ++ .push i v true :: b) (hret : s.pc = .returned) :
    (finished (a ++ .push i v true :: b ++ .write i :: c))[(accepted a).length]? = some v := by
  rw [List.append_cons (a ++ .push i v true :: b)] at h ⊢
  have hrun := h.mono fun hs => hs.2
  obtain ⟨t, hposted, hrest⟩ := run_append_iff.mp h
  obtain ⟨u, hbefore, hwrite⟩ := run_snoc_iff.mp (hposted.mono fun hs => hs.2)
  have hlen : (accepted a).length < (accepted (a ++ .push i v true :: b ++ [.write i])).length := by
    simp [accepted, Fifo.accepted, Event.toFifo]
  -- the byte is in the pipe, and `loop` has not seen `m_exit`
  have hdue : Due (Out (accepted a).length (a ++ .push i v true :: b ++ [.write i])) t := by
    have hlast : ¬u.pc.last := not_last hbefore hstore
    cases hwrite with
    | write => exact due_of_pipe (Nat.succ_pos _) hlast
  have hout := run_due (hposted.mono fun hs => hs.2) hlen hdue hrest
  rw [Due, hret] at hout
  -- what is taken out is a prefix of what was put in
  have hprefix := conserved hrun
  rw [Sys.init, List.nil_append] at hprefix
  rw [← popped_eq_finished hrun hret, ← List.getElem?_append_left hout, ← hprefix]
  simp [accepted, Fifo.accepted, Event.toFifo]

/-- The loop thread sees `m_exit` before it has read any byte. -/
theorem finished_of_returned_last : ∃ es s, Run (guarded Reports (Step 2)) (Sys.init Nat 0 1) es s ∧
    s.pc = .returned ∧ (finished es)[0]? = some 7 := by
  have hrun : ∃ s, Run (guarded Reports (Step 2)) (Sys.init Nat 0 1)
      ([] ++ .push 1 7 true :: [] ++ .write 1 :: [.store 1, .write 1, .loop, .test, .poll true, .read,
        .pop (some 7), .taskEnd 7, .pop none, .dispatchEnd, .timersEnd]) s ∧ s.pc = .returned := by
    refine ⟨?s, ?run, ?facts⟩
    case run =>
      refine .cons ⟨trivial, .push ⟨rfl, nofun⟩ rfl⟩ ?_
      refine .cons ⟨trivial, .write rfl nofun (by decide)⟩ ?_
      refine .cons ⟨trivial, .store ⟨rfl, nofun⟩⟩ ?_
      refine .cons ⟨trivial, .write rfl nofun (by decide)⟩ ?_
      refine .cons ⟨trivial, .loop rfl rfl⟩ ?_
      refine .cons ⟨trivial, .test rfl⟩ ?_
      refine .cons ⟨rfl, .poll rfl fun _ => by decide⟩ ?_
      refine .cons ⟨trivial, .read rfl rfl⟩ ?_
      refine .cons ⟨trivial, .pop rfl rfl⟩ ?_
      refine .cons ⟨trivial, .taskEnd rfl rfl⟩ ?_
      refine .cons ⟨trivial, .popNone rfl rfl⟩ ?_
      refine .cons ⟨trivial, .dispatchEnd rfl rfl⟩ ?_
      refine .cons ⟨trivial, .timersEnd rfl rfl⟩ ?_
      exact .nil
    case facts => rfl
  obtain ⟨s, hrun, hret⟩ := hrun
  have hstore : ∀ j, (.store j : Event Nat) ∉ [] ++ .push 1 7 true :: [] := by
    intro j hj
    cases List.mem_singleton.mp hj
  exact ⟨_, s, hrun, hret, finished_of_returned hrun hstore hret⟩

end NetLibrary.EventLoop
