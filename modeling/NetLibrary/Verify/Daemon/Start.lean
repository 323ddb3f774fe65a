import NetLibrary.Model.Daemon

/-!
# Stale pid files

`daemonStart` reaches the `fork` only without a positive pid in the file (`daemonStart_fork_iff`), so a pid
file that a daemon has left behind blocks it, and `daemonRestart` with it. `stale_iff` says when both do what they
should.
-/

namespace NetLibrary.Daemon

variable {os : Os} {p q : Process} {pid : Int} {n m : Nat} {pidfile : String}

/-- The pid that is recorded in the file, not positive if there is none. -/
def recorded (os : Os) (p : Process) : Int := (getPidFromFile os p).1

/-! ## Single calls -/

theorem getPidFromFile_of_recorded (h : 0 < recorded os p) : getPidFromFile os p = (recorded os p, p) := by
  unfold recorded getPidFromFile at *
  split at h
  · cases h
  · rfl

theorem recorded_congr (h : os.pidfile q.kills = os.pidfile p.kills) : recorded os q = recorded os p := by
  unfold recorded getPidFromFile
  rw [h]
  split <;> rfl

/-- The process after a call of `kill` that succeeds. -/
def Process.called (p : Process) : Process := { p with kills := p.kills + 1 }

theorem called_kills : p.called.kills = p.kills + 1 := rfl

theorem kill_of_ok (h : os.kill p.kills pid = .ok) : kill os p pid = (0, p.called) := by
  rw [kill, h]
  rfl

theorem kill_of_esrch (h : os.kill p.kills pid = .esrch) :
    kill os p pid = (-1, { p with kills := p.kills + 1, errno := ESRCH }) := by
  rw [kill, h]

theorem kill_of_not_ok (h : os.kill p.kills pid ≠ .ok) :
    ∃ q, kill os p pid = (-1, q) ∧ q.kills = p.kills + 1 := by
  unfold kill
  split
  · exact absurd ‹_› h
  · exact ⟨_, rfl, rfl⟩
  · exact ⟨_, rfl, rfl⟩

theorem daemonStart_of_recorded (h : 0 < recorded os p) : (daemonStart os p).1 = .ret (-1) := by
  rw [daemonStart, getPidFromFile_of_recorded h]
  simp only [if_pos h]
  split <;> rfl

theorem daemonStart_fork_iff (hppid : os.ppid ≠ 1) :
    (daemonStart os p).1 = .fork ↔ recorded os p ≤ 0 := by
  by_cases hpos : 0 < recorded os p
  · rw [daemonStart_of_recorded hpos]
    exact iff_of_false nofun (Int.not_le.mpr hpos)
  · refine iff_of_true ?_ (Int.not_lt.mp hpos)
    change (if 0 < recorded os p then _ else _ : Outcome × Process).1 = .fork
    rw [if_neg hpos, if_neg hppid]

/-! ## Waiting for the end of a process -/

/-- A process is there for so many calls of `kill`, and not at the next one. -/
def EndsAfter (os : Os) (k : Nat) (pid : Int) (m : Nat) : Prop :=
  (∀ j < m, os.kill (k + j) pid = .ok) ∧ os.kill (k + m) pid ≠ .ok

theorem EndsAfter.cons (hok : os.kill n pid = .ok) (h : EndsAfter os (n + 1) pid m) :
    EndsAfter os n pid (m + 1) := by
  refine ⟨fun j hj => ?_, ?_⟩
  · cases j with
    | zero => exact hok
    | succ j =>
      rw [← Nat.succ_add_eq_add_succ]
      exact h.1 j (Nat.lt_of_succ_lt_succ hj)
  · rw [← Nat.succ_add_eq_add_succ]
    exact h.2

theorem EndsAfter.tail (h : EndsAfter os n pid (m + 1)) : EndsAfter os (n + 1) pid m := by
  refine ⟨fun j hj => ?_, ?_⟩
  · rw [Nat.succ_add_eq_add_succ]
    exact h.1 (j + 1) (Nat.succ_lt_succ hj)
  · rw [Nat.succ_add_eq_add_succ]
    exact h.2

theorem waitExit_of_ok (hok : os.kill p.kills pid = .ok) :
    waitExit os pid (n + 1) p = waitExit os pid n p.called := by
  rw [waitExit, kill_of_ok hok]
  rfl

theorem waitExit_of_not_ok (hend : os.kill p.kills pid ≠ .ok) :
    ∃ q, waitExit os pid (n + 1) p = (0, q) ∧ q.kills = p.kills + 1 := by
  obtain ⟨q, hkill, hkills⟩ := kill_of_not_ok hend
  rw [waitExit, hkill]
  exact ⟨_, rfl, hkills⟩

theorem waitExit_of_ends (h : EndsAfter os p.kills pid m) (hm : m < n) :
    ∃ q, waitExit os pid n p = (0, q) ∧ q.kills = p.kills + m + 1 := by
  induction n generalizing p m with
  | zero => cases hm
  | succ n ih =>
    cases m with
    | zero => exact waitExit_of_not_ok h.2
    | succ m =>
      rw [waitExit_of_ok (h.1 0 (Nat.succ_pos m))]
      have htail : EndsAfter os p.called.kills pid m := h.tail
      obtain ⟨q, hwait, hkills⟩ := ih htail (Nat.lt_of_succ_lt_succ hm)
      exact ⟨q, hwait, hkills.trans (by rw [called_kills]; omega)⟩

theorem ends_of_waitExit (h : waitExit os pid n p = (0, q)) :
    ∃ m < n, EndsAfter os p.kills pid m ∧ q.kills = p.kills + m + 1 := by
  induction n generalizing p with
  | zero => cases h
  | succ n ih =>
    by_cases hok : os.kill p.kills pid = .ok
    · rw [waitExit_of_ok hok] at h
      obtain ⟨m, hm, hends, hkills⟩ := ih h
      refine ⟨m + 1, Nat.succ_lt_succ hm, hends.cons hok, hkills.trans ?_⟩
      change p.kills + 1 + m + 1 = _
      omega
    · obtain ⟨r, hwait, hkills⟩ := waitExit_of_not_ok (n := n) hok
      cases hwait.symm.trans h
      exact ⟨0, Nat.succ_pos n, ⟨fun j hj => absurd hj (Nat.not_lt_zero j), hok⟩, hkills⟩

theorem daemonStop_of_not_recorded (h : ¬0 < recorded os p) : (daemonStop os pidfile p).1 = -1 := by
  rw [daemonStop]
  exact congrArg Prod.fst (if_pos (Int.not_lt.mp h))

theorem daemonStop_of_ok (hpid : 0 < recorded os p) (hok : os.kill p.kills (recorded os p) = .ok) :
    daemonStop os pidfile p = waitExit os (recorded os p) 300 p.called := by
  rw [daemonStop, getPidFromFile_of_recorded hpid]
  simp only [if_neg (Int.not_le.mpr hpid), kill_of_ok hok, if_neg (Int.lt_irrefl 0)]

theorem daemonStop_of_not_ok (hpid : 0 < recorded os p) (hno : os.kill p.kills (recorded os p) ≠ .ok) :
    (daemonStop os pidfile p).1 = -1 := by
  obtain ⟨q, hkill, -⟩ := kill_of_not_ok hno
  rw [daemonStop, getPidFromFile_of_recorded hpid]
  simp only [if_neg (Int.not_le.mpr hpid), hkill, if_pos (show (-1 : Int) < 0 by decide)]

/-- `daemonStop` succeeds if it can send a signal and the process ends before the loop does. -/
theorem daemonStop_of_ends (hpid : 0 < recorded os p) (h : EndsAfter os p.kills (recorded os p) (m + 1))
    (hm : m < 300) : ∃ q, daemonStop os pidfile p = (0, q) ∧ q.kills = p.kills + m + 2 := by
  have htail : EndsAfter os p.called.kills (recorded os p) m := h.tail
  obtain ⟨q, hwait, hkills⟩ := waitExit_of_ends htail hm
  refine ⟨q, ?_, hkills.trans (by rw [called_kills]; omega)⟩
  rw [daemonStop_of_ok hpid (h.1 0 (Nat.succ_pos m)), hwait]

theorem ends_of_daemonStop (hpid : 0 < recorded os p) (h : daemonStop os pidfile p = (0, q)) :
    ∃ m < 300, EndsAfter os p.kills (recorded os p) (m + 1) ∧ q.kills = p.kills + m + 2 := by
  by_cases hok : os.kill p.kills (recorded os p) = .ok
  · rw [daemonStop_of_ok hpid hok] at h
    obtain ⟨m, hm, hends, hkills⟩ := ends_of_waitExit h
    exact ⟨m, hm, hends.cons hok, hkills.trans (by rw [called_kills]; omega)⟩
  · have hfail : (daemonStop os pidfile p).1 = -1 := daemonStop_of_not_ok hpid hok
    rw [h] at hfail
    cases hfail

/-! ## Starting again -/

/-- The recorded process does not exist, and the pid file stays. -/
def Gone (os : Os) (p : Process) : Prop :=
  os.kill p.kills (recorded os p) = .esrch ∧ os.pidfile (p.kills + 1) = os.pidfile p.kills

/-- `daemonStop` of `daemonRestart` succeeds because the recorded process ends, and the pid file stays. -/
def Stopped (os : Os) (pidfile : String) (p : Process) : Prop :=
  os.kill p.kills (recorded os p) = .ok ∧
    ∃ q, daemonStop os pidfile (kill os p (recorded os p)).2 = (0, q) ∧
      os.kill (q.kills - 1) (recorded os p) = .esrch ∧
        ∀ k, p.kills ≤ k → k ≤ q.kills → os.pidfile k = os.pidfile p.kills

/-- The recorded process is there when it is probed and at the first signal, ends while `daemonStop` sends the
others, and leaves the pid file. -/
def Leaves (os : Os) (p : Process) : Prop :=
  ∃ m < 300, EndsAfter os p.kills (recorded os p) (m + 2) ∧
    os.kill (p.kills + m + 2) (recorded os p) = .esrch ∧
      ∀ k ≤ m + 3, os.pidfile (p.kills + k) = os.pidfile p.kills

/-- `daemonStart` goes on to the `fork` exactly without a positive pid or if the recorded process does not
exist. -/
def StartsFresh (os : Os) (p : Process) : Prop :=
  (daemonStart os p).1 = .fork ↔
    recorded os p ≤ 0 ∨ os.kill p.kills (recorded os p) = .esrch

/-- `daemonRestart` reaches the `fork` if the recorded process does not exist or was stopped. -/
def RestartsFresh (os : Os) (pidfile : String) (p : Process) : Prop :=
  0 < recorded os p → Gone os p ∨ Stopped os pidfile p → (daemonRestart os pidfile p).1 = .fork

theorem startsFresh_iff (hppid : os.ppid ≠ 1) :
    StartsFresh os p ↔ recorded os p ≤ 0 ∨ os.kill p.kills (recorded os p) ≠ .esrch := by
  rw [StartsFresh, daemonStart_fork_iff hppid]
  constructor
  · intro h
    by_cases hesrch : os.kill p.kills (recorded os p) = .esrch
    · exact .inl (h.mpr (.inr hesrch))
    · exact .inr hesrch
  · rintro (hpid | hesrch)
    · exact iff_of_true hpid (.inl hpid)
    · exact (or_iff_left hesrch).symm

/-- `daemonStop` as `daemonRestart` calls it. -/
theorem daemonStop_of_leaves (hpid : 0 < recorded os p) (h : Leaves os p) (pidfile : String) :
    os.kill p.kills (recorded os p) = .ok ∧ ∃ q, daemonStop os pidfile p.called = (0, q) ∧
      os.kill (q.kills - 1) (recorded os p) = .esrch ∧ p.kills ≤ q.kills ∧
        ∀ k, p.kills ≤ k → k ≤ q.kills → os.pidfile k = os.pidfile p.kills := by
  obtain ⟨m, hm, hends, hesrch, hkept⟩ := h
  have hsame : recorded os p.called = recorded os p := recorded_congr (hkept 1 (by omega))
  have htail : EndsAfter os p.called.kills (recorded os p.called) (m + 1) := hsame ▸ hends.tail
  obtain ⟨q, hstop, hkills⟩ := daemonStop_of_ends (hsame ▸ hpid) htail hm
  have hkills : q.kills = p.kills + m + 3 := hkills.trans (by rw [called_kills]; omega)
  refine ⟨hends.1 0 (Nat.succ_pos _), q, hstop, ?_, by omega, fun k hk hk' => ?_⟩
  · rw [hkills]
    exact hesrch
  · rw [← hkept (k - p.kills) (by omega), Nat.add_sub_cancel' hk]

theorem stopped_iff_leaves (hpid : 0 < recorded os p) : Stopped os pidfile p ↔ Leaves os p := by
  constructor
  · rintro ⟨hok, q, hstop, hesrch, hkept⟩
    rw [kill_of_ok hok] at hstop
    have hpid' : 0 < recorded os p.called := by
      by_contra hno
      have hfail : (daemonStop os pidfile p.called).1 = -1 := daemonStop_of_not_recorded hno
      rw [hstop] at hfail
      cases hfail
    obtain ⟨m, hm, hends, hkills⟩ := ends_of_daemonStop hpid' hstop
    have hkills : q.kills = p.kills + m + 3 := hkills.trans (by rw [called_kills]; omega)
    rw [hkills] at hesrch hkept
    have hsame : recorded os p.called = recorded os p :=
      recorded_congr (hkept (p.kills + 1) (by omega) (by omega))
    rw [hsame] at hends
    exact ⟨m, hm, hends.cons hok, hesrch, fun k hk => hkept _ (by omega) (by omega)⟩
  · intro h
    obtain ⟨hok, q, hstop, hesrch, -, hkept⟩ := daemonStop_of_leaves hpid h pidfile
    refine ⟨hok, q, ?_, hesrch, hkept⟩
    rw [kill_of_ok hok]
    exact hstop

theorem daemonRestart_of_gone (hpid : 0 < recorded os p) (h : Gone os p) :
    (daemonRestart os pidfile p).1 = .ret (-1) := by
  rw [daemonRestart, getPidFromFile_of_recorded hpid]
  simp only [if_pos hpid, kill_of_esrch h.1]
  apply daemonStart_of_recorded
  rw [recorded_congr (p := p) h.2]
  exact hpid

theorem daemonRestart_of_leaves (hpid : 0 < recorded os p) (h : Leaves os p) :
    (daemonRestart os pidfile p).1 = .ret (-1) := by
  obtain ⟨hok, q, hstop, -, hle, hkept⟩ := daemonStop_of_leaves hpid h pidfile
  rw [daemonRestart, getPidFromFile_of_recorded hpid]
  simp only [if_pos hpid, kill_of_ok hok, hstop]
  have hsame : recorded os (q.fprintf "pidfile not valid") = recorded os p :=
    recorded_congr (hkept q.kills hle (Nat.le_refl _))
  exact daemonStart_of_recorded (hsame ▸ hpid)

theorem restartsFresh_iff : RestartsFresh os pidfile p ↔ recorded os p ≤ 0 ∨ (¬Gone os p ∧ ¬Leaves os p) := by
  by_cases hpid : 0 < recorded os p
  · rw [or_iff_right (Int.not_le.mpr hpid)]
    constructor
    · intro hfresh
      refine ⟨fun hgone => ?_, fun hleaves => ?_⟩
      · have hfork := hfresh hpid (.inl hgone)
        rw [daemonRestart_of_gone hpid hgone] at hfork
        cases hfork
      · have hfork := hfresh hpid (.inr ((stopped_iff_leaves hpid).mpr hleaves))
        rw [daemonRestart_of_leaves hpid hleaves] at hfork
        cases hfork
    · rintro ⟨hgone, hleaves⟩ - (h | h)
      · exact absurd h hgone
      · exact absurd ((stopped_iff_leaves hpid).mp h) hleaves
  · exact iff_of_true (fun h => absurd h hpid) (.inl (Int.not_lt.mp hpid))

/-- **When stale pid files do not block a start**: if no positive pid is recorded, or if the recorded process
exists and does not leave the file behind while it is stopped. -/
theorem stale_iff (hppid : os.ppid ≠ 1) : StartsFresh os p ∧ RestartsFresh os pidfile p ↔
    recorded os p ≤ 0 ∨ (os.kill p.kills (recorded os p) ≠ .esrch ∧ ¬Leaves os p) := by
  rw [startsFresh_iff hppid, restartsFresh_iff, ← or_and_left]
  refine or_congr_right (and_congr_right fun hesrch => and_iff_right fun hgone => ?_)
  exact hesrch hgone.1

/-- The pid file of a daemon that runs on, whatever signals it gets. -/
def liveFile : Os where
  ppid := 7
  pidfile _ := .ok (['4', '2', '\n'].map Char.toUInt8)
  kill _ _ := .ok
  beyond := []

theorem stale_iff_live : recorded liveFile { errno := 0 } = 42 ∧ StartsFresh liveFile { errno := 0 } ∧
    RestartsFresh liveFile "pid" { errno := 0 } := by
  refine ⟨by decide, (stale_iff (by decide)).mpr (.inr ⟨nofun, ?_⟩)⟩
  rintro ⟨m, -, hends, -⟩
  exact hends.2 rfl

/-- The pid file of a daemon that was killed. -/
def staleFile : Os := { liveFile with kill := fun _ _ => .esrch }

theorem stale_blocks : staleFile.ppid ≠ 1 ∧ ¬StartsFresh staleFile { errno := 0 } ∧
    ¬RestartsFresh staleFile "pid" { errno := 0 } := by
  have hstart : (daemonStart staleFile { errno := 0 }).1 = .ret (-1) := by decide
  have hrestart : (daemonRestart staleFile "pid" { errno := 0 }).1 = .ret (-1) := by decide
  refine ⟨by decide, fun h => ?_, fun h => ?_⟩
  · cases hstart.symm.trans (h.mpr (.inr rfl))
  · cases hrestart.symm.trans (h (by decide) (.inl ⟨rfl, rfl⟩))

end NetLibrary.Daemon
