import NetLibrary.Model.LogFile
import NetLibrary.Theory.Links
import NetLibrary.Theory.Run

/-!
# The descriptor of the logger

The logger holds one descriptor, under a number that never changes, and leaves those of the rest of the process
alone (`one_descriptor`). Its file is the one that the name of the log refers to, as long as every `dup2` and every
`open` after a successful `rename` succeed (`file_named`). Where the `open` after a `rename` fails, the records go
to the file that the descriptor has, for ever (`never_reopened`).
-/

namespace NetLibrary.LogFile
open Files Function LTS

variable {w w' : World} {e : Event} {es : List Event} {fname : Path} {fd m i : Nat} {openRet writeRet : Option Nat}
  {files : Files Path UInt8} {now : Int} {level : Nat} {record : List UInt8} {c : Calls}

/-! ## What a call does -/

/-- The descriptor of the logger is open. -/
def Held (w : World) : Prop := ∀ m, w.fd = some m → w.fds m ≠ none

/-- The logger has opened a file: it is the file of its descriptor, unless `dup2` fails. -/
def World.reopened (w : World) (files : Files Path UInt8) (i : Nat) (dup2 : Bool) : World :=
  match w.fd with
  | some m => { w with files, fds := if dup2 then update w.fds m (some i) else w.fds }
  | none => { w with files }

theorem reopened_none {dup2 : Bool} (h : w.fd = none) : w.reopened files i dup2 = { w with files } := by
  rw [World.reopened, h]

theorem reopened_some {dup2 : Bool} (h : w.fd = some m) :
    w.reopened files i dup2 = { w with files, fds := if dup2 then update w.fds m (some i) else w.fds } := by
  rw [World.reopened, h]

theorem replace_eq (files : Files Path UInt8) (i : Nat) (dup2 : Bool) (hheld : Held w) (hfree : w.fds fd = none) :
    World.replace { w with files, fds := update w.fds fd (some i) } fd dup2 = w.reopened files i dup2 := by
  have hback : update (update w.fds fd (some i)) fd none = w.fds := by
    rw [update_idem, ← hfree, update_eq_self]
  cases hfd : w.fd with
  | none =>
    rw [reopened_none hfd]
    simp only [World.replace, hfd, hback]
  | some m =>
    have hne : fd ≠ m := by
      rintro rfl
      exact hheld fd hfd hfree
    rw [reopened_some hfd]
    simp only [World.replace, hfd]
    cases dup2 with
    | false => simp only [Bool.false_eq_true, if_false, hback]
    | true => simp only [if_true, update_self, update_comm hne.symm, hback]

theorem openFile_cases {fname : Path} (h : w.openFile fname fd = some w') :
    w.fds fd = none ∧ ∃ files i, w.files.openFile fname = some (files, i) ∧
      w' = { w with files, fds := update w.fds fd (some i) } := by
  simp only [World.openFile, Option.ite_none_right_eq_some] at h
  obtain ⟨hfree, h⟩ := h
  obtain ⟨⟨files, i⟩, hopen, rfl⟩ := Option.map_eq_some_iff.mp h
  exact ⟨hfree, files, i, hopen, rfl⟩

theorem setFileName_cases {dup2 : Bool} (hheld : Held w) (h : w.setFileName fname openRet dup2 = some w') :
    w' = w ∨ ∃ files i, w.files.openFile fname = some (files, i) ∧
      ((∃ fd, w.fd = none ∧ w.fds fd = none ∧ w' = { w with
          files, fds := update w.fds fd (some i), logger := { w.logger with filename := fname }, fd := some fd }) ∨
        ∃ m, w.fd = some m ∧
          w' = World.reopened { w with logger := { w.logger with filename := fname } } files i dup2) := by
  cases openRet with
  | none =>
    cases h
    exact .inl rfl
  | some fd =>
    obtain ⟨w₁, hopen, rfl⟩ := Option.map_eq_some_iff.mp h
    obtain ⟨hfree, files, i, hfile, rfl⟩ := openFile_cases hopen
    refine .inr ⟨files, i, hfile, ?_⟩
    cases hfd : w.fd with
    | none => exact .inl ⟨fd, rfl, hfree, by simp only⟩
    | some m =>
      refine .inr ⟨m, rfl, ?_⟩
      have hheld' : Held { w with logger := { w.logger with filename := fname } } := hheld
      have hreplace := replace_eq files i dup2 hheld' hfree
      simp only [hfd] at hreplace ⊢
      exact hreplace

/-- `rename` succeeds, and `open` may still fail. -/
theorem rotate_cases (hheld : Held w) (h : w.rotate now c = some w') :
    w' = w ∨ c.rename = true ∧ w.files.entry w.logger.filename ≠ none ∧
      ((c.openRet = none ∧
          w' = { w with files := w.files.rename w.logger.filename (w.logger.newName now) }) ∨
        ∃ files i, (w.files.rename w.logger.filename (w.logger.newName now)).openFile w.logger.filename =
          some (files, i) ∧ w' = w.reopened files i c.dup2) := by
  unfold World.rotate at h
  split at h
  · cases h
    exact .inl rfl
  rename_i hrename
  split at h
  · cases h
  rename_i hentry
  refine .inr ⟨by simpa using hrename, hentry, ?_⟩
  cases hret : c.openRet with
  | none =>
    simp only [hret] at h
    cases h
    exact .inl ⟨rfl, rfl⟩
  | some fd =>
    simp only [hret] at h
    obtain ⟨w₁, hopen, rfl⟩ := Option.map_eq_some_iff.mp h
    obtain ⟨hfree, files, i, hfile, rfl⟩ := openFile_cases hopen
    exact .inr ⟨files, i, hfile, replace_eq files i c.dup2 hheld hfree⟩

theorem maybeRotate_cases (h : w.maybeRotate now c = some w') :
    ∃ last real, w' = { w with lastRotate := last, realRotate := real } ∨
      World.rotate { w with lastRotate := last, realRotate := real } now c = some w' := by
  unfold World.maybeRotate at h
  split at h
  · cases h
    exact ⟨w.lastRotate, w.realRotate, .inl rfl⟩
  dsimp only at h
  split at h
  · cases h
    exact ⟨now, now, .inl rfl⟩
  · exact ⟨now, now, .inr h⟩

/-- A record, or a part of it, goes to the file of the descriptor. -/
theorem write_cases (h : w.write record writeRet = some w') :
    (writeRet = none ∧ w' = w) ∨ ∃ n i, writeRet = some n ∧ n ≤ record.length ∧ w.fds (w.fd.getD 1) = some i ∧
      w' = { w with files := w.files.setData i (w.files.data i ++ record.take n) } := by
  cases writeRet with
  | none =>
    cases h
    exact .inl ⟨rfl, rfl⟩
  | some n =>
    rw [World.write] at h
    split at h
    · rename_i i hi
      rw [Option.ite_none_right_eq_some] at h
      obtain ⟨hn, h⟩ := h
      cases h
      exact .inr ⟨n, i, rfl, hn, hi, rfl⟩
    · cases h

theorem logv_cases (h : w.logv now level record c writeRet = some w') :
    (w.logger.level < level ∧ w' = w) ∨ (level ≤ w.logger.level ∧
      ∃ w₁, w.maybeRotate now c = some w₁ ∧ w₁.write record writeRet = some w') := by
  unfold World.logv at h
  split at h
  · rename_i hlevel
    cases h
    exact .inl ⟨hlevel, rfl⟩
  · rename_i hlevel
    exact .inr ⟨Nat.not_lt.mp hlevel, Option.bind_eq_some_iff.mp h⟩

/-! ## The descriptors -/

/-- The logger's descriptor is open beside those of the rest of the process. -/
def Holds (w : World) : Prop :=
  match w.fd with
  | none => w.fds = w.others
  | some m => w.others m = none ∧ ∃ i, w.fds = update w.others m (some i)

theorem Holds.held (h : Holds w) : Held w := by
  intro m hm
  simp only [Holds, hm] at h
  obtain ⟨-, i, hfds⟩ := h
  rw [hfds, update_self]
  exact Option.some_ne_none i

/-- A descriptor that is closed is another than the logger's. -/
theorem Holds.ne_of_free (h : Holds w) (hm : w.fd = some m) (hfree : w.fds fd = none) : m ≠ fd := by
  rintro rfl
  exact h.held m hm hfree

theorem Holds.ne_of_other (h : Holds w) (hm : w.fd = some m) (hopen : w.others fd ≠ none) : m ≠ fd := by
  rintro rfl
  simp only [Holds, hm] at h
  exact hopen h.1

/-- Nothing but the descriptors matters. -/
theorem Holds.keep (h : Holds w) (hfd : w'.fd = w.fd) (hfds : w'.fds = w.fds) (hothers : w'.others = w.others) :
    Holds w' := by
  unfold Holds at h ⊢
  rwa [hfd, hfds, hothers]

theorem Holds.reopened {dup2 : Bool} (h : Holds w) : Holds (w.reopened files i dup2) := by
  cases hfd : w.fd with
  | none =>
    rw [reopened_none hfd]
    exact h.keep rfl rfl rfl
  | some m =>
    rw [reopened_some hfd]
    cases dup2 with
    | false => exact h.keep rfl rfl rfl
    | true =>
      simp only [Holds, hfd] at h
      obtain ⟨hother, j, hfds⟩ := h
      simp only [Holds, hfd]
      refine ⟨hother, i, ?_⟩
      rw [if_pos trivial, hfds, update_idem]

/-- The rest of the process opens or closes another descriptor. -/
theorem Holds.other {file : Option Nat} (h : Holds w) (hne : w.fd ≠ some fd) :
    Holds { w with fds := update w.fds fd file, others := update w.others fd file } := by
  cases hfd : w.fd with
  | none =>
    simp only [Holds, hfd] at h ⊢
    rw [h]
  | some m =>
    have hm : m ≠ fd := fun heq => hne (heq ▸ hfd)
    simp only [Holds, hfd] at h ⊢
    obtain ⟨hother, i, hfds⟩ := h
    refine ⟨(update_of_ne hm _ _).trans hother, i, ?_⟩
    rw [hfds, update_comm hm]

theorem reopened_fd {dup2 : Bool} : (w.reopened files i dup2).fd = w.fd := by
  unfold World.reopened
  split
  · rfl
  · rfl

theorem reopened_logger {dup2 : Bool} : (w.reopened files i dup2).logger = w.logger := by
  unfold World.reopened
  split
  · rfl
  · rfl

/-- What `maybeRotate` does to the descriptors. -/
theorem Holds.maybeRotate (h : Holds w) (hrotate : w.maybeRotate now c = some w') : Holds w' ∧ w'.fd = w.fd := by
  obtain ⟨last, real, rfl | hrotate⟩ := maybeRotate_cases hrotate
  · exact ⟨h.keep rfl rfl rfl, rfl⟩
  have h' : Holds { w with lastRotate := last, realRotate := real } := h.keep rfl rfl rfl
  rcases rotate_cases h'.held hrotate with rfl | ⟨-, -, ⟨-, rfl⟩ | ⟨files, i, -, rfl⟩⟩
  · exact ⟨h', rfl⟩
  · exact ⟨h'.keep rfl rfl rfl, rfl⟩
  · exact ⟨h'.reopened, reopened_fd⟩

theorem Holds.step (h : Holds w) (hs : Step w e w') : Holds w' ∧ (w.fd ≠ none → w'.fd = w.fd) := by
  cases hs with
  | setFileName hset =>
    rcases setFileName_cases h.held hset with rfl | ⟨files, i, -, ⟨fd, hnone, hfree, rfl⟩ | ⟨m, hfd, rfl⟩⟩
    · exact ⟨h, fun _ => rfl⟩
    · simp only [Holds, hnone] at h
      refine ⟨⟨h ▸ hfree, i, ?_⟩, fun hfd => absurd hnone hfd⟩
      exact congrArg (update · fd (some i)) h
    · have h' : ∀ logger, Holds { w with logger } := fun _ => h.keep rfl rfl rfl
      exact ⟨(h' _).reopened, fun _ => reopened_fd⟩
  | setLogLevel | setRotateInterval | files => exact ⟨h.keep rfl rfl rfl, fun _ => rfl⟩
  | logv hlog =>
    rcases logv_cases hlog with ⟨-, rfl⟩ | ⟨-, w₁, hrotate, hwrite⟩
    · exact ⟨h, fun _ => rfl⟩
    obtain ⟨h₁, hfd⟩ := h.maybeRotate hrotate
    rcases write_cases hwrite with ⟨-, rfl⟩ | ⟨n, i, -, -, -, rfl⟩
    · exact ⟨h₁, fun _ => hfd⟩
    · exact ⟨h₁.keep rfl rfl rfl, fun _ => hfd⟩
  | openOther hfree => exact ⟨h.other fun hfd => h.ne_of_free hfd hfree rfl, fun _ => rfl⟩
  | closeOther hopen => exact ⟨h.other fun hfd => h.ne_of_other hfd hopen rfl, fun _ => rfl⟩

theorem run_holds {files₀ : Files Path UInt8} {others : Nat → Option Nat} {timezone start : Int}
    (h : Run Step (.init files₀ others timezone start) es w) : Holds w :=
  h.invariant (I := Holds) rfl fun h hs => (h.step hs).1

/-- The descriptor that a `setFileName` has opened. -/
def opened : Event → Option Nat
  | .setFileName _ openRet _ => openRet
  | _ => none

/-- The logger keeps the first descriptor that a `setFileName` opens. -/
theorem fd_step (h : Holds w) (hs : Step w e w') : w'.fd = w.fd.or (opened e) := by
  cases hfd : w.fd with
  | some m => exact ((h.step hs).2 (by simp [hfd])).trans hfd
  | none =>
    rw [Option.none_or]
    cases hs with
    | @setFileName _ _ openRet _ hset =>
      cases openRet with
      | none =>
        cases hset
        exact hfd
      | some fd =>
        obtain ⟨w₁, hopen, rfl⟩ := Option.map_eq_some_iff.mp hset
        obtain ⟨-, files, i, -, rfl⟩ := openFile_cases hopen
        simp only [hfd, opened]
    | logv hlog =>
      rcases logv_cases hlog with ⟨-, rfl⟩ | ⟨-, w₁, hrotate, hwrite⟩
      · exact hfd
      have hfd₁ : w₁.fd = none := (h.maybeRotate hrotate).2.trans hfd
      rcases write_cases hwrite with ⟨-, rfl⟩ | ⟨n, i, -, -, -, rfl⟩
      · exact hfd₁
      · exact hfd₁
    | setLogLevel | setRotateInterval | files | openOther | closeOther => exact hfd

theorem fd_run {files₀ : Files Path UInt8} {others : Nat → Option Nat} {timezone start : Int}
    (h : Run Step (.init files₀ others timezone start) es w) : w.fd = es.findSome? opened := by
  induction h with
  | nil => rfl
  | snoc hrun hs ih => rw [fd_step (run_holds hrun) hs, ih, List.findSome?_append, List.findSome?_singleton]

/-- **One descriptor.** Whatever the system calls return, and whatever the rest of the process does with its
descriptors and the files, the descriptors that are open are those of the rest of the process, with the files
that it has opened them for, and one of the logger: the one that the first successful `open` of a `setFileName`
has returned. Its number never changes, and the destructor closes it. -/
theorem one_descriptor {files₀ : Files Path UInt8} {others : Nat → Option Nat} {timezone start : Int}
    (h : Run Step (.init files₀ others timezone start) es w) :
    w.fd = es.findSome? opened ∧
    (w.fd = none → w.fds = w.others) ∧
    (∀ m, w.fd = some m → w.others m = none ∧ (∃ i, w.fds = update w.others m (some i)) ∧
      ∀ es' w', Run Step w es' w' → w'.fd = some m) ∧
    w.destroy.fds = w.others := by
  have hholds := run_holds h
  refine ⟨fd_run h, fun hnone => ?none, fun m hm => ?some, ?destroy⟩
  case none => simpa only [Holds, hnone] using hholds
  case some =>
    have hheld := hholds
    simp only [Holds, hm] at hheld
    refine ⟨hheld.1, hheld.2, fun es' w' hrun => ?_⟩
    have hinv : Holds w' ∧ w'.fd = some m :=
      hrun.invariant (I := fun w => Holds w ∧ w.fd = some m) ⟨hholds, hm⟩ fun hI hs => by
        obtain ⟨h', hfd⟩ := hI.1.step hs
        exact ⟨h', (hfd (by simp [hI.2])).trans hI.2⟩
    exact hinv.2
  case destroy =>
    cases hfd : w.fd with
    | none =>
      simp only [Holds, hfd] at hholds
      simpa only [World.destroy, hfd] using hholds
    | some m =>
      simp only [Holds, hfd] at hholds
      obtain ⟨hother, i, hfds⟩ := hholds
      simp only [World.destroy, hfd, hfds, update_idem]
      rw [← hother, update_eq_self]

/-- No file, and the first three descriptors. -/
def stdio : World := .init (Files.empty _ _) (fun fd => if fd < 3 then some 9 else none) 0 0

/-- The second `setFileName` opens 4, which becomes 3. -/
def setTwice : List Event :=
  [.setFileName ['k'] none true, .setFileName ['l'] (some 3) true, .setFileName ['m'] (some 4) true]

theorem one_descriptor_setFileName : ∃ w, Run Step stdio setTwice w ∧ w.fd = some 3 ∧ w.fds 4 = none ∧
    w.destroy.fds = w.others ∧ ∀ es' w', Run Step w es' w' → w'.fd = some 3 := by
  have hset : ∃ w w', stdio.setFileName ['l'] (some 3) true = some w ∧
      w.setFileName ['m'] (some 4) true = some w' ∧ w'.others 4 = none := ⟨_, _, rfl, rfl, rfl⟩
  obtain ⟨w, w', hset, hset', hother⟩ := hset
  have hrun : Run Step stdio setTwice w' :=
    .cons (.setFileName rfl) (.cons (.setFileName hset) (.single (.setFileName hset')))
  obtain ⟨hfd, -, hsome, hdestroy⟩ := one_descriptor hrun
  have hfd : w'.fd = some 3 := hfd
  obtain ⟨-, ⟨i, hfds⟩, hkept⟩ := hsome 3 hfd
  refine ⟨w', hrun, hfd, ?_, hdestroy, hkept⟩
  rw [hfds, update_of_ne (by decide)]
  exact hother

/-! ## The name of the log -/

/-- An `open` after a successful `rename` succeeds, and so does every `dup2`. Only the logger changes files. -/
def Succeeds : Event → Prop
  | .setFileName _ _ dup2 => dup2 = true
  | .logv _ _ _ c _ => c.rename = true → c.openRet ≠ none ∧ c.dup2 = true
  | .files => False
  | _ => True

/-- The name of the log refers to the file of the logger's descriptor. -/
def Named (w : World) : Prop :=
  w.logger.filename ≠ [] → ∃ m i, w.fd = some m ∧ w.fds m = some i ∧ w.files.find w.logger.filename = some i

theorem Named.reopened (hfile : files.find w.logger.filename = some i) (hm : w.fd = some m) :
    Named (w.reopened files i true) := by
  rw [reopened_some hm]
  exact fun _ => ⟨m, i, hm, update_self _ _ _, hfile⟩

theorem Named.maybeRotate (h : Named w) (hholds : Holds w) (hrotate : w.maybeRotate now c = some w')
    (hc : c.rename = true → c.openRet ≠ none ∧ c.dup2 = true) : Named w' ∧ w'.logger = w.logger := by
  by_cases hname : w.logger.filename = []
  · rw [World.maybeRotate, if_pos (.inl hname)] at hrotate
    cases hrotate
    exact ⟨h, rfl⟩
  obtain ⟨m, i, hm, -, -⟩ := h hname
  obtain ⟨last, real, rfl | hrotate⟩ := maybeRotate_cases hrotate
  · exact ⟨h, rfl⟩
  have hholds' : Holds { w with lastRotate := last, realRotate := real } := hholds.keep rfl rfl rfl
  rcases rotate_cases hholds'.held hrotate with rfl | ⟨hrename, -, ⟨hnone, -⟩ | ⟨files, i, hopen, rfl⟩⟩
  · exact ⟨h, rfl⟩
  · exact absurd hnone (hc hrename).1
  · rw [(hc hrename).2]
    exact ⟨Named.reopened (find_openFile_self hopen) hm, reopened_logger⟩

theorem Named.write (h : Named w) (hwrite : w.write record writeRet = some w') : Named w' := by
  rcases write_cases hwrite with ⟨-, rfl⟩ | ⟨n, i, -, -, -, rfl⟩
  · exact h
  · exact h

/-- The rest of the process opens or closes another descriptor. -/
theorem Named.other {file : Option Nat} (h : Named w) (hne : w.fd ≠ some fd) :
    Named { w with fds := update w.fds fd file, others := update w.others fd file } := by
  intro hname
  obtain ⟨m, i, hm, hi, hfile⟩ := h hname
  have hfd : m ≠ fd := fun heq => hne (heq ▸ hm)
  exact ⟨m, i, hm, (update_of_ne hfd _ _).trans hi, hfile⟩

theorem Named.step (h : Named w) (hholds : Holds w) (hok : Succeeds e) (hs : Step w e w') : Named w' := by
  cases hs with
  | setFileName hset =>
    rcases setFileName_cases hholds.held hset with rfl | ⟨files, i, hopen, hcases⟩
    · exact h
    have hfile := find_openFile_self hopen
    rcases hcases with ⟨fd, hnone, hfree, rfl⟩ | ⟨m, hm, rfl⟩
    · exact fun _ => ⟨fd, i, rfl, update_self _ _ _, hfile⟩
    · have hok : _ = true := hok
      rw [hok]
      exact Named.reopened hfile hm
  | setLogLevel | setRotateInterval => exact h
  | logv hlog =>
    rcases logv_cases hlog with ⟨-, rfl⟩ | ⟨-, w₁, hrotate, hwrite⟩
    · exact h
    · exact (h.maybeRotate hholds hrotate hok).1.write hwrite
  | openOther hfree => exact h.other fun hfd => hholds.ne_of_free hfd hfree rfl
  | closeOther hopen => exact h.other fun hfd => hholds.ne_of_other hfd hopen rfl
  | files => exact hok.elim

/-- **The records are under the log's name.** As long as every `dup2` and every `open` after a successful `rename`
succeed, and nobody else changes files, the file of the descriptor is the one that the log's name refers to, over
any links, through all rotations and changes of the name. So what `logv` writes is at the end of the file of that
name. -/
theorem file_named {files₀ : Files Path UInt8} {others : Nat → Option Nat} {timezone start : Int}
    (h : Run (guarded (fun _ e => Succeeds e) Step) (.init files₀ others timezone start) es w)
    (hname : w.logger.filename ≠ []) :
    (∃ m i, w.fd = some m ∧ w.fds m = some i ∧ w.files.find w.logger.filename = some i) ∧
    ∀ now level record c n w', level ≤ w.logger.level → Succeeds (.logv now level record c (some n)) →
      w.logv now level record c (some n) = some w' →
      ∃ pre, w'.files.content w.logger.filename = some (pre ++ record.take n) := by
  have hinv : Holds w ∧ Named w := h.invariant (I := fun w => Holds w ∧ Named w)
    ⟨rfl, fun hname => absurd rfl hname⟩ fun hI hs => ⟨(hI.1.step hs.2).1, hI.2.step hI.1 hs.1 hs.2⟩
  obtain ⟨hholds, hnamed⟩ := hinv
  refine ⟨hnamed hname, fun now level record c n w' hlevel hok hlog => ?_⟩
  rcases logv_cases hlog with ⟨hlt, -⟩ | ⟨-, w₁, hrotate, hwrite⟩
  · exact absurd hlt (Nat.not_lt.mpr hlevel)
  obtain ⟨hnamed₁, hlogger⟩ := hnamed.maybeRotate hholds hrotate hok
  obtain ⟨m, i, hm, hi, hfile⟩ := hnamed₁ (by rwa [hlogger])
  rcases write_cases hwrite with ⟨hnone, -⟩ | ⟨n', j, hn, -, hj, rfl⟩
  · cases hnone
  cases hn
  rw [hm, Option.getD_some, hi] at hj
  cases hj
  rw [hlogger] at hfile
  exact ⟨_, content_setData_of_find hfile⟩

theorem file_named_rotated : ∃ es w w' pre, Run (guarded (fun _ e => Succeeds e) Step) stdio es w ∧
    w.logv 90000 4 [7] ⟨true, some 4, true⟩ (some 1) = some w' ∧
    w'.files.content ['l'] = some (pre ++ [7]) := by
  have hset : ∃ w w', stdio.setFileName ['l'] (some 3) true = some w ∧
      w.logv 90000 4 [7] ⟨true, some 4, true⟩ (some 1) = some w' ∧ w.logger.filename = ['l'] ∧
      4 ≤ w.logger.level := ⟨_, _, rfl, rfl, rfl, by decide⟩
  obtain ⟨w, w', hset, hlog, hname, hlevel⟩ := hset
  have hrun : Run (guarded (fun _ e => Succeeds e) Step) stdio [.setFileName ['l'] (some 3) true] w :=
    .single ⟨rfl, .setFileName hset⟩
  obtain ⟨-, hlogged⟩ := file_named hrun (by rw [hname]; exact List.cons_ne_nil _ _)
  obtain ⟨pre, hcontent⟩ := hlogged _ _ _ _ _ w' hlevel (fun _ => ⟨Option.some_ne_none 4, rfl⟩) hlog
  exact ⟨_, w, w', pre, hrun, hlog, hname ▸ hcontent⟩

/-! ## After an `open` that has failed -/

/-- The users leave the name of the log as it is, and nobody else changes files. -/
def Alone : Event → Prop
  | .setFileName _ _ _ | .files => False
  | _ => True

/-- The name of the log has no entry, and descriptor `m` of the logger is file `i`. -/
structure Lost (entries : Path → Option (Node Path)) (m i : Nat) (w : World) : Prop where
  holds : Holds w
  fd : w.fd = some m
  file : w.fds m = some i
  entry : w.files.entry = entries
  lost : w.files.entry w.logger.filename = none

theorem Lost.maybeRotate {entries : Path → Option (Node Path)} (h : Lost entries m i w)
    (hrotate : w.maybeRotate now c = some w') :
    Lost entries m i w' ∧ w'.files = w.files ∧ w'.logger = w.logger := by
  obtain ⟨last, real, rfl | hrotate⟩ := maybeRotate_cases hrotate
  · exact ⟨⟨h.holds.keep rfl rfl rfl, h.fd, h.file, h.entry, h.lost⟩, rfl, rfl⟩
  have hholds : Holds { w with lastRotate := last, realRotate := real } := h.holds.keep rfl rfl rfl
  rcases rotate_cases hholds.held hrotate with rfl | ⟨-, hentry, -⟩
  · exact ⟨⟨hholds, h.fd, h.file, h.entry, h.lost⟩, rfl, rfl⟩
  · exact absurd h.lost hentry

/-- The rest of the process opens or closes another descriptor. -/
theorem Lost.other {entries : Path → Option (Node Path)} {file : Option Nat} (h : Lost entries m i w)
    (hne : w.fd ≠ some fd) :
    Lost entries m i { w with fds := update w.fds fd file, others := update w.others fd file } := by
  have hfd : m ≠ fd := fun heq => hne (heq ▸ h.fd)
  exact ⟨h.holds.other hne, h.fd, (update_of_ne hfd _ _).trans h.file, h.entry, h.lost⟩

/-- The level that a call leaves. -/
def levelAfter (level : Nat) : Event → Nat
  | .setLogLevel l => min 7 l
  | _ => level

/-- What a call at an enabled level logs: so much of its record as `write` takes. -/
def logged (level : Nat) : Event → List UInt8
  | .logv _ l record _ (some n) => if l ≤ level then record.take n else []
  | _ => []

/-- What a run from an enabled level logs. -/
def allLogged : Nat → List Event → List UInt8
  | _, [] => []
  | level, e :: es => logged level e ++ allLogged (levelAfter level e) es

theorem logged_of_lt (h : level < n) : logged level (.logv now n record c writeRet) = [] := by
  cases writeRet with
  | none => rfl
  | some _ => exact if_neg (Nat.not_le.mpr h)

/-- A step appends what it logs to the file of the descriptor, and changes no other. -/
theorem Lost.step {entries : Path → Option (Node Path)} (h : Lost entries m i w) (hok : Alone e)
    (hs : Step w e w') : Lost entries m i w' ∧ w'.logger.level = levelAfter w.logger.level e ∧
      w'.files.data = update w.files.data i (w.files.data i ++ logged w.logger.level e) := by
  have hholds := (h.holds.step hs).1
  have hsame : ∀ data : Nat → List UInt8, data = update data i (data i ++ []) := fun data => by
    rw [List.append_nil, update_eq_self]
  cases hs with
  | setFileName | files => exact hok.elim
  | setLogLevel | setRotateInterval => exact ⟨⟨hholds, h.fd, h.file, h.entry, h.lost⟩, rfl, hsame _⟩
  | @logv _ now l record c writeRet hlog =>
    rcases logv_cases hlog with ⟨hlevel, rfl⟩ | ⟨hlevel, w₁, hrotate, hwrite⟩
    · rw [logged_of_lt hlevel]
      exact ⟨h, rfl, hsame _⟩
    obtain ⟨h₁, hfiles, hlogger⟩ := h.maybeRotate hrotate
    rw [← hlogger] at hlevel
    rw [← hfiles, ← hlogger]
    rcases write_cases hwrite with ⟨rfl, rfl⟩ | ⟨n, j, rfl, -, hj, rfl⟩
    · exact ⟨h₁, rfl, hsame _⟩
    rw [h₁.fd, Option.getD_some, h₁.file] at hj
    cases hj
    simp only [logged, if_pos hlevel]
    exact ⟨⟨hholds, h₁.fd, h₁.file, h₁.entry, h₁.lost⟩, rfl, rfl⟩
  | openOther hfree => exact ⟨h.other fun hfd => h.holds.ne_of_free hfd hfree rfl, rfl, hsame _⟩
  | closeOther hopen => exact ⟨h.other fun hfd => h.holds.ne_of_other hfd hopen rfl, rfl, hsame _⟩

theorem Lost.run {entries : Path → Option (Node Path)} (h : Lost entries m i w)
    (hrun : Run (guarded (fun _ e => Alone e) Step) w es w') : Lost entries m i w' ∧
      w'.files.data = update w.files.data i (w.files.data i ++ allLogged w.logger.level es) := by
  induction es generalizing w with
  | nil =>
    obtain rfl := run_nil_iff.mp hrun
    rw [allLogged, List.append_nil, update_eq_self]
    exact ⟨h, rfl⟩
  | cons e es ih =>
    obtain ⟨w₁, hs, hrest⟩ := run_cons_iff.mp hrun
    obtain ⟨h₁, hlevel, hdata⟩ := h.step hs.1 hs.2
    obtain ⟨h', hdata'⟩ := ih h₁ hrest
    refine ⟨h', ?_⟩
    rw [hdata', hlevel, hdata, update_self, update_idem, List.append_assoc, allLogged]

/-- **The log is never opened again.** When the `open` after a `rename` has failed, so that the name of the log
has no entry, every later `rename` fails. No file is made or moved any more, whatever the time: the descriptor
stays on the file that it has, and this file grows by exactly what is logged, in order, and no other does. -/
theorem never_reopened {files₀ : Files Path UInt8} {others : Nat → Option Nat} {timezone start : Int}
    {es' : List Event} (hreach : Run Step (.init files₀ others timezone start) es w) (hm : w.fd = some m)
    (hi : w.fds m = some i) (hlost : w.files.entry w.logger.filename = none)
    (h : Run (guarded (fun _ e => Alone e) Step) w es' w') :
    w'.files.entry = w.files.entry ∧ w'.fds m = some i ∧
      w'.files.data i = w.files.data i ++ allLogged w.logger.level es' ∧
      ∀ j, j ≠ i → w'.files.data j = w.files.data j := by
  have hstart : Lost w.files.entry m i w := ⟨run_holds hreach, hm, hi, rfl, hlost⟩
  obtain ⟨hend, hdata⟩ := hstart.run h
  rw [hdata]
  exact ⟨hend.entry, hend.file, update_self .., fun j hj => update_of_ne hj ..⟩

theorem never_reopened_lost : ∃ w w' : World, w.fds 3 = some 0 ∧ w.files.entry ['l'] = none ∧
    w.logv 180000 4 [8] ⟨false, none, true⟩ (some 1) = some w' ∧ w'.files.entry ['l'] = none ∧
    w'.fds 3 = some 0 ∧ w'.files.data 0 = w.files.data 0 ++ [8] := by
  have hset : ∃ w w₁ w', stdio.setFileName ['l'] (some 3) true = some w ∧
      w.logv 90000 4 [7] ⟨true, none, true⟩ (some 1) = some w₁ ∧
      w₁.logv 180000 4 [8] ⟨false, none, true⟩ (some 1) = some w' ∧ w₁.fd = some 3 ∧ w₁.fds 3 = some 0 ∧
      w₁.logger.filename = ['l'] ∧ w₁.logger.level = 4 ∧ w₁.files.entry ['l'] = none :=
    ⟨_, _, _, rfl, rfl, rfl, rfl, rfl, rfl, rfl, by decide⟩
  obtain ⟨w, w₁, w', hset, hlog, hlast, hfd, hfile, hname, hlevel, hlost⟩ := hset
  have hrun := Run.snoc (.single (Step.setFileName hset)) (.logv hlog)
  have hrest : Run (guarded (fun _ e => Alone e) Step) w₁ [.logv 180000 4 [8] ⟨false, none, true⟩ (some 1)] w' :=
    .single ⟨trivial, .logv hlast⟩
  obtain ⟨hentry, hfile', hdata, -⟩ := never_reopened hrun hfd hfile (hname ▸ hlost) hrest
  rw [hlevel] at hdata
  exact ⟨w₁, w', hfile, hlost, hlast, by rw [hentry, hlost], hfile', hdata⟩

end NetLibrary.LogFile
