import Mathlib.Data.List.TakeDrop
import NetLibrary.Theory.Links
import NetLibrary.Model.File

/-!
# What `renameSave` leaves under the new name

The new name holds the new content if `renameSave` returns ok, and what it held before if not, exactly if the
calls of the operating system had `Safe` results for the files that there were (`replaces_iff`).
-/

namespace NetLibrary.File
open Files Relation

variable {strerror : Errno → List Char} {c : Calls} {fs fs' fs₁ : FileSystem} {s : Status} {fd : Nat}
variable {newName oldName fname target : List Char} {cont d : List UInt8} {errno : Errno} {op : String}

/-! ## The functions -/

theorem ok_ioError : (Status.ioError strerror op fname errno).ok = false := by
  rw [Status.ok, beq_eq_false_iff_ne]
  exact Int.ofNat_ne_zero.mpr errno.property

theorem writeContent_cases (h : writeContent strerror c fs fname cont = some (fs', s)) :
    (∃ e, c.openRet = .error e ∧ fs' = fs ∧ s.ok = false) ∨
      ∃ fs₁ fd, c.openRet = .ok () ∧ fs.openFile fname = some (fs₁, fd) ∧
        ((∃ e, c.writeRet = .error e ∧ fs' = fs₁.setData fd [] ∧ s.ok = false) ∨
          ∃ r, c.writeRet = .ok r ∧ r ≤ cont.length ∧ fs' = fs₁.setData fd (cont.take r) ∧ s = {}) := by
  unfold writeContent at h
  cases hopen : c.openRet with
  | error e =>
    rw [hopen] at h
    cases h
    exact .inl ⟨e, rfl, rfl, ok_ioError⟩
  | ok =>
    simp only [hopen, Option.bind_eq_bind, Option.bind_eq_some_iff] at h
    obtain ⟨⟨fs₁, fd⟩, hfile, h⟩ := h
    refine .inr ⟨fs₁, fd, rfl, hfile, ?_⟩
    cases hwrite : c.writeRet with
    | error e =>
      rw [hwrite] at h
      cases h
      exact .inl ⟨e, rfl, rfl, ok_ioError⟩
    | ok r =>
      simp only [hwrite, Option.ite_none_right_eq_some] at h
      obtain ⟨hle, h⟩ := h
      cases h
      exact .inr ⟨r, rfl, hle.1, setData_setData, rfl⟩

theorem unlink_cases (h : unlink c fs fname = some fs') :
    (∃ e, c.unlinkRet = .error e ∧ fs' = fs) ∨ (c.unlinkRet = .ok () ∧ fs' = fs.unlink fname) := by
  unfold unlink at h
  cases hunlink : c.unlinkRet with
  | error e =>
    rw [hunlink] at h
    cases h
    exact .inl ⟨e, rfl, rfl⟩
  | ok =>
    simp only [hunlink, Option.ite_none_left_eq_some] at h
    cases h.2
    exact .inr ⟨rfl, rfl⟩

theorem renameFile_cases (h : renameFile strerror c fs fname target = some (fs', s)) :
    (∃ e, c.renameRet = .error e ∧ fs' = fs ∧ s.ok = false) ∨
      (c.renameRet = .ok () ∧ fs.entry fname ≠ none ∧ fs' = fs.rename fname target ∧ s = {}) := by
  unfold renameFile at h
  cases hrename : c.renameRet with
  | error e =>
    rw [hrename] at h
    cases h
    exact .inl ⟨e, rfl, rfl, ok_ioError⟩
  | ok =>
    simp only [hrename, Option.ite_none_left_eq_some] at h
    obtain ⟨hentry, h⟩ := h
    cases h
    exact .inr ⟨rfl, hentry, rfl, rfl⟩

/-! ## The new name -/

/-- The new name holds the new content, or after an error what it held before. -/
def Replaces (fs fs' : FileSystem) (s : Status) (newName : List Char) (cont : List UInt8) : Prop :=
  (s.ok = true → fs'.content newName = some cont) ∧
    (s.ok = false → fs'.content newName = fs.content newName)

/-- What is written under the one name does not change the content of the other. -/
def Untouched (fs : FileSystem) (oldName newName : List Char) (d : List UInt8) : Prop :=
  ¬fs.SameFile oldName newName ∨ fs.content newName = some d

/-- Results of the system calls that are safe for the files that there are. -/
def Safe (c : Calls) (fs : FileSystem) (newName oldName : List Char) (cont : List UInt8) : Prop :=
  match c.openRet, c.writeRet, c.unlinkRet, c.renameRet with
  | .error _, _, _, _ => True
  | .ok _, .error _, _, _ => Untouched fs oldName newName []
  | .ok _, .ok r, _, .ok _ => r = cont.length ∧ ¬fs.Leads oldName newName
  | .ok _, .ok _, .ok _, .error _ => fs.content newName = none
  | .ok _, .ok r, .error _, .error _ => Untouched fs oldName newName (cont.take r)

theorem replaces_of_ok (hok : s.ok = true) : Replaces fs fs' s newName cont ↔ fs'.content newName = some cont := by
  simp [Replaces, hok]

theorem replaces_of_error (hok : s.ok = false) :
    Replaces fs fs' s newName cont ↔ fs'.content newName = fs.content newName := by
  simp [Replaces, hok]

theorem untouched_iff (hopen : fs.openFile oldName = some (fs₁, fd)) :
    (fs₁.setData fd d).content newName = fs.content newName ↔ Untouched fs oldName newName d := by
  by_cases hsame : fs.SameFile oldName newName
  · rw [content_openFile_of_same hopen hsame, Untouched, eq_comm]
    simp [hsame]
  · rw [content_openFile_of_not_same hopen hsame, Untouched]
    simp [hsame]

/-- A `rename` that succeeds gives the new name what was written, if the old name does not lead to it. -/
theorem content_renamed (hopen : fs.openFile oldName = some (fs₁, fd))
    (hunlink : unlink c (fs₁.setData fd d) newName = some fs') (hentry : fs'.entry oldName ≠ none) :
    (fs'.rename oldName newName).content newName = some cont ↔ d = cont ∧ ¬fs.Leads oldName newName := by
  obtain ⟨final, hfinal, -⟩ := openFile_cases hopen
  have hfollow : (fs₁.setData fd d).follow (maxLinks + 1) oldName = some final :=
    (follow_openFile hopen).trans hfinal
  have hwritten : (fs₁.setData fd d).content oldName = some d :=
    content_openFile_of_same hopen (.of_openFile hopen)
  have hleads : (fs₁.setData fd d).Leads oldName newName ↔ fs.Leads oldName newName :=
    show fs₁.Leads oldName newName ↔ _ from leads_openFile hopen
  rw [← hleads]
  by_cases hlead : (fs₁.setData fd d).Leads oldName newName
  · have hnone : (fs'.rename oldName newName).content newName = none := by
      rcases unlink_cases hunlink with ⟨-, -, rfl⟩ | ⟨-, rfl⟩
      · exact content_rename_of_leads hfollow hlead
      · rw [(rename_unlink hentry).2]
        exact content_move_of_leads (rename_unlink hentry).1 hfollow hlead
    simp [hnone, hlead]
  · have hsome : (fs'.rename oldName newName).content newName = some d := by
      rw [← hwritten]
      rcases unlink_cases hunlink with ⟨-, -, rfl⟩ | ⟨-, rfl⟩
      · exact content_rename hfollow hlead
      · rw [(rename_unlink hentry).2]
        exact content_move (rename_unlink hentry).1 hfollow hlead
    simp [hsome, hlead]

/-- **When `renameSave` replaces the new name safely**: for every file system, every pair of names and everything
that the system calls may return. -/
theorem replaces_iff (h : renameSave strerror c fs newName oldName cont = some (fs', s)) :
    Replaces fs fs' s newName cont ↔ Safe c fs newName oldName cont := by
  simp only [renameSave, Option.bind_eq_bind, Option.bind_eq_some_iff] at h
  obtain ⟨⟨fs₂, s₂⟩, hcontent, h⟩ := h
  rcases writeContent_cases hcontent with ⟨e, hopen, rfl, herr⟩ | ⟨fs₁, fd, hopen, hfile, hwrite⟩
  · rw [if_neg (by simp [herr])] at h
    cases h
    rw [replaces_of_error herr, Safe, hopen]
    exact iff_of_true rfl trivial
  rcases hwrite with ⟨e, hwrite, rfl, herr⟩ | ⟨r, hwrite, hr, rfl, rfl⟩
  · rw [if_neg (by simp [herr])] at h
    cases h
    rw [replaces_of_error herr, untouched_iff hfile, Safe, hopen, hwrite]
  rw [if_pos (by rfl)] at h
  obtain ⟨fs₃, hremove, hmove⟩ := Option.bind_eq_some_iff.mp h
  rcases renameFile_cases hmove with ⟨e, hrename, rfl, herr⟩ | ⟨hrename, hentry, rfl, rfl⟩
  · rw [replaces_of_error herr]
    rcases unlink_cases hremove with ⟨e', hunlink, rfl⟩ | ⟨hunlink, rfl⟩
    · rw [untouched_iff hfile, Safe, hopen, hwrite, hunlink, hrename]
    · rw [content_unlink, Safe, hopen, hwrite, hunlink, hrename, eq_comm]
  · rw [replaces_of_ok rfl, content_renamed hfile hremove hentry, Safe, hopen, hwrite, hrename]
    have hall : cont.take r = cont ↔ r = cont.length :=
      (List.take_eq_self_iff cont).trans ⟨fun hle => Nat.le_antisymm hr hle, Nat.le_of_eq ∘ Eq.symm⟩
    exact and_congr_left' hall

/-- One file, `n`, with one byte. -/
def saved : FileSystem := ((Files.empty _ _).create ['n']).setData 0 [0]

def allSucceed : Calls := ⟨.ok (), .ok 2, .ok (), .ok ()⟩

theorem replaces_iff_allSucceed :
    ∃ fs' s, renameSave (fun _ => []) allSucceed saved ['n'] ['t'] [1, 2] = some (fs', s) ∧
      Replaces saved fs' s ['n'] [1, 2] := by
  obtain ⟨⟨fs', s⟩, h⟩ : ∃ r, renameSave (fun _ => []) allSucceed saved ['n'] ['t'] [1, 2] = some r :=
    Option.isSome_iff_exists.mp (by decide)
  refine ⟨fs', s, h, (replaces_iff h).mpr ⟨rfl, fun hleads => ?_⟩⟩
  have hnone : saved.entry ['t'] = none := by decide
  obtain ⟨y, hy, -⟩ := TransGen.head'_iff.mp hleads
  cases hnone.symm.trans hy

/-- A full disk: only one byte of two is written. -/
def shortWrite : Calls := { allSucceed with writeRet := .ok 1 }

/-- A `rename` that fails after the `unlink`. -/
def renameFails : Calls := { allSucceed with renameRet := .error ⟨5, by decide⟩ }

instance : Decidable (Replaces fs fs' s newName cont) := inferInstanceAs (Decidable (_ ∧ _))

theorem not_replaces :
    (∃ fs' s, renameSave (fun _ => []) shortWrite saved ['n'] ['t'] [1, 2] = some (fs', s) ∧
      ¬Replaces saved fs' s ['n'] [1, 2]) ∧
    (∃ fs' s, renameSave (fun _ => []) renameFails saved ['n'] ['t'] [1, 2] = some (fs', s) ∧
      ¬Replaces saved fs' s ['n'] [1, 2]) := by
  have hfails : ∀ {c}, ((renameSave (fun _ => []) c saved ['n'] ['t'] [1, 2]).map fun r =>
      decide (Replaces saved r.1 r.2 ['n'] [1, 2])) = some false →
        ∃ fs' s, renameSave (fun _ => []) c saved ['n'] ['t'] [1, 2] = some (fs', s) ∧
          ¬Replaces saved fs' s ['n'] [1, 2] := by
    intro c heval
    obtain ⟨⟨fs', s⟩, h, hfalse⟩ := Option.map_eq_some_iff.mp heval
    exact ⟨fs', s, h, of_decide_eq_false hfalse⟩
  exact ⟨hfails (by decide), hfails (by decide)⟩

end NetLibrary.File
