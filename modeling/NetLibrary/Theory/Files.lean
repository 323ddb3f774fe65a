import Mathlib.Logic.Function.Basic
import Mathlib.Data.List.Basic

/-!
# Files, hard links and symbolic links

A file system is its directory entries and the data of its files. An entry is a file, under its inode number,
or a symbolic link; several entries may be the same file. Inode numbers are not used again, so that a
file without an entry is still the file of the descriptors that refer to it. A `Plain` file system has
neither kind of link, and its contents are a map from names.
-/

inductive Files.Node (ν : Type*)
  | file (inode : Nat)
  | symlink (target : ν)
  deriving DecidableEq

structure Files (ν α : Type*) where
  entry : ν → Option (Files.Node ν)
  data : Nat → List α
  next : Nat
  /-- Numbers from `next` on are unused. -/
  entry_lt : ∀ {name i}, entry name = some (.file i) → i < next

namespace Files
open Function

variable {ν α : Type*}

/-- The most links that are followed for one name. -/
def maxLinks : Nat := 40

/-- The name at which a name ends, if it is reached over fewer links than `n`. -/
def follow (fs : Files ν α) : Nat → ν → Option ν
  | 0, _ => none
  | n + 1, name =>
    match fs.entry name with
    | some (.symlink target) => fs.follow n target
    | _ => some name

def inode? : Option (Node ν) → Option Nat
  | some (.file i) => some i
  | _ => none

/-- The file that a name refers to. -/
def find (fs : Files ν α) (name : ν) : Option Nat :=
  (fs.follow (maxLinks + 1) name).bind fun final => inode? (fs.entry final)

def content (fs : Files ν α) (name : ν) : Option (List α) := (fs.find name).map fs.data

/-- A name is a link to another. -/
def Links (fs : Files ν α) (x y : ν) : Prop := fs.entry x = some (.symlink y)

/-- No file at all. -/
def empty (ν α : Type*) : Files ν α where
  entry _ := none
  data _ := []
  next := 0
  entry_lt h := by cases h

section
variable {fs : Files ν α} {x : ν} {i : Nat}

theorem follow_of_not_links {n : Nat} (h : ∀ y, ¬fs.Links x y) : fs.follow (n + 1) x = some x := by
  rw [follow]
  split
  · rename_i y hx
    exact absurd hx (h y)
  · rfl

theorem find_of_not_links (h : ∀ y, ¬fs.Links x y) : fs.find x = inode? (fs.entry x) := by
  rw [find, follow_of_not_links h, Option.bind_some]

theorem content_of_file (h : fs.entry x = some (.file i)) : fs.content x = some (fs.data i) := by
  have hlink : ∀ y, ¬fs.Links x y := fun y hy => nomatch h.symm.trans hy
  rw [content, find_of_not_links hlink, h]
  rfl

theorem content_of_none (h : fs.entry x = none) : fs.content x = none := by
  have hlink : ∀ y, ¬fs.Links x y := fun y hy => nomatch h.symm.trans hy
  rw [content, find_of_not_links hlink, h]
  rfl

end

variable [DecidableEq ν]

/-- A new file at a free name. -/
def create (fs : Files ν α) (name : ν) : Files ν α where
  entry := update fs.entry name (some (.file fs.next))
  data := update fs.data fs.next []
  next := fs.next + 1
  entry_lt {x i} h := by
    by_cases hx : x = name
    · rw [hx, update_self] at h
      cases h
      exact Nat.lt_succ_self _
    · rw [update_of_ne hx] at h
      exact Nat.lt_succ_of_lt (fs.entry_lt h)

/-- `open` with `O_CREAT`: the file of the descriptor, unless there are too many links. -/
def openFile (fs : Files ν α) (name : ν) : Option (Files ν α × Nat) :=
  (fs.follow (maxLinks + 1) name).map fun final =>
    match inode? (fs.entry final) with
    | some i => (fs, i)
    | none => (fs.create final, fs.next)

/-- What writing through a descriptor leaves in its file. -/
def setData (fs : Files ν α) (i : Nat) (d : List α) : Files ν α := { fs with data := update fs.data i d }

/-- `unlink` of a name that has an entry. -/
def unlink (fs : Files ν α) (name : ν) : Files ν α where
  entry := update fs.entry name none
  data := fs.data
  next := fs.next
  entry_lt {x i} h := by
    by_cases hx : x = name
    · rw [hx, update_self] at h
      cases h
    · rw [update_of_ne hx] at h
      exact fs.entry_lt h

/-- The entry of `src` moves to `target`. -/
def move (fs : Files ν α) (src target : ν) : Files ν α where
  entry := update (update fs.entry target (fs.entry src)) src none
  data := fs.data
  next := fs.next
  entry_lt {x i} h := by
    by_cases hs : x = src
    · rw [hs, update_self] at h
      cases h
    by_cases ht : x = target
    · rw [update_of_ne hs, ht, update_self] at h
      exact fs.entry_lt h
    · rw [update_of_ne hs, update_of_ne ht] at h
      exact fs.entry_lt h

/-- `rename` of a name that has an entry. It does nothing if the two entries are the same file. -/
def rename (fs : Files ν α) (src target : ν) : Files ν α :=
  if src = target ∨ (inode? (fs.entry src)).isSome ∧ fs.entry src = fs.entry target then fs
  else fs.move src target

section
variable {fs : Files ν α} {name src target x : ν}

theorem entry_create :
    (fs.create name).entry x = if x = name then some (.file fs.next) else fs.entry x :=
  update_apply ..

theorem entry_unlink : (fs.unlink name).entry x = if x = name then none else fs.entry x :=
  update_apply ..

omit [DecidableEq ν] in
theorem setData_setData {i : Nat} {d d' : List α} : (fs.setData i d).setData i d' = fs.setData i d' := by
  simp only [setData, update_idem]

theorem entry_move : (fs.move src target).entry x =
    if x = src then none else if x = target then fs.entry src else fs.entry x := by
  simp only [move, update_apply]

end

/-! ## Plain file systems -/

/-- Every entry is a file, and no file has two entries. -/
structure Plain (fs : Files ν α) : Prop where
  not_symlink : ∀ name target, fs.entry name ≠ some (.symlink target)
  entry_inj : ∀ {x y i}, fs.entry x = some (.file i) → fs.entry y = some (.file i) → x = y

variable {fs : Files ν α} {name src target x : ν} {i : Nat} {d : List α}

omit [DecidableEq ν] in
theorem Plain.empty : Plain (empty ν α) where
  not_symlink _ _ h := by cases h
  entry_inj h := by cases h

omit [DecidableEq ν] in
theorem Plain.follow (h : Plain fs) (n : Nat) : fs.follow (n + 1) name = some name :=
  follow_of_not_links (h.not_symlink name)

omit [DecidableEq ν] in
/-- A name without an entry or with a file. -/
theorem Plain.entry_cases (h : Plain fs) (name : ν) :
    fs.entry name = none ∨ ∃ i, fs.entry name = some (.file i) := by
  cases hx : fs.entry name with
  | none => exact .inl rfl
  | some node =>
    cases node with
    | file i => exact .inr ⟨i, rfl⟩
    | symlink target => exact absurd hx (h.not_symlink name target)

theorem Plain.create (h : Plain fs) : Plain (fs.create name) where
  not_symlink y t hy := by
    rw [entry_create] at hy
    split at hy
    · cases hy
    · exact h.not_symlink y t hy
  entry_inj {y z i} hy hz := by
    rw [entry_create] at hy hz
    split at hy <;> split at hz
    · rename_i hyn hzn
      exact hyn.trans hzn.symm
    · cases hy
      exact absurd (fs.entry_lt hz) (Nat.lt_irrefl _)
    · cases hz
      exact absurd (fs.entry_lt hy) (Nat.lt_irrefl _)
    · exact h.entry_inj hy hz

theorem Plain.content_create (h : Plain fs) :
    (fs.create name).content x = if x = name then some [] else fs.content x := by
  split
  · rename_i hx
    subst hx
    rw [content_of_file (entry_create.trans (if_pos rfl))]
    exact congrArg some (update_self ..)
  · rename_i hx
    have hentry : (fs.create name).entry x = fs.entry x := entry_create.trans (if_neg hx)
    rcases h.entry_cases x with hnone | ⟨i, hfile⟩
    · rw [content_of_none hnone, content_of_none (hentry.trans hnone)]
    · rw [content_of_file hfile, content_of_file (hentry.trans hfile)]
      exact congrArg some (update_of_ne (Nat.ne_of_lt (fs.entry_lt hfile)) ..)

/-- `open` finds the file or makes an empty one, and leaves the other names alone. -/
theorem Plain.openFile (h : Plain fs) (name : ν) : ∃ fs' i, fs.openFile name = some (fs', i) ∧ Plain fs' ∧
    fs'.entry name = some (.file i) ∧
      ∀ x, fs'.content x = if x = name then some ((fs.content name).getD []) else fs.content x := by
  rcases h.entry_cases name with hnone | ⟨i, hfile⟩
  · refine ⟨fs.create name, fs.next, ?_, h.create, entry_create.trans (if_pos rfl), fun x => ?_⟩
    · simp [Files.openFile, h.follow, hnone, inode?]
    · rw [h.content_create, content_of_none hnone]
      rfl
  · refine ⟨fs, i, ?_, h, hfile, fun x => ?_⟩
    · simp [Files.openFile, h.follow, hfile, inode?]
    · split
      · rename_i hx
        rw [hx, content_of_file hfile]
        rfl
      · rfl

omit [DecidableEq ν] in
theorem Plain.setData (h : Plain fs) : Plain (fs.setData i d) := ⟨h.not_symlink, h.entry_inj⟩

theorem Plain.content_setData (h : Plain fs) (hfile : fs.entry name = some (.file i)) :
    (fs.setData i d).content x = if x = name then some d else fs.content x := by
  have hsame : (fs.setData i d).entry x = fs.entry x := rfl
  split
  · rename_i hx
    subst hx
    rw [content_of_file (hsame.trans hfile)]
    exact congrArg some (update_self ..)
  · rename_i hx
    rcases h.entry_cases x with hnone | ⟨k, hother⟩
    · rw [content_of_none hnone, content_of_none (hsame.trans hnone)]
    · have hk : k ≠ i := by
        rintro rfl
        exact hx (h.entry_inj hother hfile)
      rw [content_of_file hother, content_of_file (hsame.trans hother)]
      exact congrArg some (update_of_ne hk ..)

theorem Plain.unlink (h : Plain fs) : Plain (fs.unlink name) where
  not_symlink y t hy := by
    rw [entry_unlink] at hy
    split at hy
    · cases hy
    · exact h.not_symlink y t hy
  entry_inj {y z i} hy hz := by
    rw [entry_unlink] at hy hz
    split at hy
    · cases hy
    split at hz
    · cases hz
    exact h.entry_inj hy hz

theorem Plain.content_unlink (h : Plain fs) :
    (fs.unlink name).content x = if x = name then none else fs.content x := by
  split
  · rename_i hx
    exact content_of_none (entry_unlink.trans (if_pos hx))
  · rename_i hx
    have hentry : (fs.unlink name).entry x = fs.entry x := entry_unlink.trans (if_neg hx)
    rcases h.entry_cases x with hnone | ⟨i, hfile⟩
    · rw [content_of_none hnone, content_of_none (hentry.trans hnone)]
    · rw [content_of_file hfile, content_of_file (hentry.trans hfile)]
      rfl

/-- `rename` to another name: the file is found under that alone. -/
theorem Plain.rename (h : Plain fs) (hne : src ≠ target) (hfile : fs.entry src = some (.file i)) :
    Plain (fs.rename src target) ∧ ∀ x, (fs.rename src target).content x =
      if x = src then none else if x = target then fs.content src else fs.content x := by
  have hmove : fs.rename src target = fs.move src target := by
    rw [Files.rename, if_neg]
    rintro (heq | ⟨-, hsame⟩)
    · exact hne heq
    · exact hne (h.entry_inj hfile (hsame ▸ hfile))
  have hplain : Plain (fs.move src target) := by
    refine ⟨fun y t hy => ?_, fun {y z k} hy hz => ?_⟩
    · rw [entry_move] at hy
      split at hy
      · cases hy
      split at hy
      · exact h.not_symlink _ t hy
      · exact h.not_symlink _ t hy
    · rw [entry_move] at hy hz
      split at hy
      · cases hy
      split at hz
      · cases hz
      rename_i hys hzs
      split at hy <;> split at hz
      · rename_i hyt hzt
        exact hyt.trans hzt.symm
      · exact absurd (h.entry_inj hz hy) hzs
      · exact absurd (h.entry_inj hy hz) hys
      · exact h.entry_inj hy hz
  rw [hmove]
  refine ⟨hplain, fun y => ?_⟩
  have hy : (fs.move src target).entry y = _ := entry_move
  split
  · rename_i hs
    exact content_of_none (hy.trans (if_pos hs))
  rename_i hs
  rw [if_neg hs] at hy
  split
  · rename_i ht
    rw [if_pos ht] at hy
    rw [content_of_file (hy.trans hfile), content_of_file hfile]
    rfl
  · rename_i ht
    rw [if_neg ht] at hy
    rcases h.entry_cases y with hnone | ⟨k, hother⟩
    · rw [content_of_none (hy.trans hnone), content_of_none hnone]
    · rw [content_of_file (hy.trans hother), content_of_file hother]
      rfl

end Files
