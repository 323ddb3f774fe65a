import Mathlib.Logic.Relation
import NetLibrary.Theory.Files

/-!
# Symbolic links

What `open`, `unlink` and `rename` do to the contents of a file system that has symbolic and hard links. A name
`Leads` over its links to others. It cannot lead to itself if it can be opened (`follow_of_loop`).
Two names are the `SameFile` if the one shows what is written under the other.
-/

namespace Files
open Function Relation

variable {ν α : Type*} {fs fs' : Files ν α} {n i : Nat} {x y z final src target : ν} {d : List α}

/-- A name leads to another over one or more links. -/
def Leads (fs : Files ν α) : ν → ν → Prop := TransGen fs.Links

/-- What is written under one of the names is found under the other. -/
def SameFile (fs : Files ν α) (x y : ν) : Prop :=
  ∃ final final', fs.follow (maxLinks + 1) x = some final ∧ fs.follow (maxLinks + 1) y = some final' ∧
    (final = final' ∨ ∃ i, fs.entry final = some (.file i) ∧ fs.entry final' = some (.file i))

/-! ## Following links -/

theorem Links.follow (h : fs.Links x y) : fs.follow (n + 1) x = fs.follow n y := by
  rw [Files.follow, show fs.entry x = _ from h]

/-- A name that can be followed leads to a name that is no link. -/
theorem exists_of_follow (h : fs.follow n x = some final) :
    ReflTransGen fs.Links x final ∧ ∀ y, ¬fs.Links final y := by
  induction n generalizing x with
  | zero => cases h
  | succ n ih =>
    by_cases hx : ∃ y, fs.Links x y
    · obtain ⟨y, hy⟩ := hx
      rw [hy.follow] at h
      exact ⟨.head hy (ih h).1, (ih h).2⟩
    · have hx : ∀ y, ¬fs.Links x y := fun y hy => hx ⟨y, hy⟩
      rw [follow_of_not_links hx] at h
      cases h
      exact ⟨.refl, hx⟩

/-- Only the links on the way count. -/
theorem follow_congr (h : ∀ y, ReflTransGen fs.Links x y → ∀ z, fs'.Links y z ↔ fs.Links y z) :
    fs'.follow n x = fs.follow n x := by
  induction n generalizing x with
  | zero => rfl
  | succ n ih =>
    by_cases hx : ∃ y, fs.Links x y
    · obtain ⟨y, hy⟩ := hx
      rw [hy.follow, ((h x .refl y).mpr hy).follow]
      exact ih fun z hz => h z (.head hy hz)
    · have hx : ∀ y, ¬fs.Links x y := fun y hy => hx ⟨y, hy⟩
      rw [follow_of_not_links hx, follow_of_not_links fun y hy => hx y ((h x .refl y).mp hy)]

/-- Nothing is found in a loop. -/
theorem follow_of_loop (h : fs.Leads x x) : fs.follow n x = none := by
  induction n generalizing x with
  | zero => rfl
  | succ n ih =>
    obtain ⟨y, hy, hback⟩ := TransGen.head'_iff.mp h
    rw [hy.follow]
    exact ih (.tail' hback hy)

/-- A name that can be followed leads to no loop. -/
theorem not_leads_of_follow (h : fs.follow n x = some final) (hreach : ReflTransGen fs.Links x y) :
    ¬fs.Leads y y := by
  induction hreach using ReflTransGen.head_induction_on generalizing n with
  | refl =>
    intro hloop
    rw [follow_of_loop hloop] at h
    cases h
  | head hlink _ ih =>
    cases n with
    | zero => cases h
    | succ n =>
      rw [hlink.follow] at h
      exact ih h

theorem inode?_eq_some_iff {node : Option (Node ν)} : inode? node = some i ↔ node = some (.file i) := by
  unfold inode?
  split <;> simp_all

theorem find_eq_some_iff :
    fs.find x = some i ↔ ∃ final, fs.follow (maxLinks + 1) x = some final ∧ fs.entry final = some (.file i) := by
  simp only [find, Option.bind_eq_some_iff, inode?_eq_some_iff]

theorem content_setData_of_find (h : fs.find x = some i) : (fs.setData i d).content x = some d := by
  rw [content, show (fs.setData i d).find x = fs.find x from rfl, h]
  exact congrArg some (update_self ..)

variable [DecidableEq ν]

/-! ## Opening a file -/

theorem links_create (hnone : fs.entry x = none) : (fs.create x).Links y z ↔ fs.Links y z := by
  unfold Links
  rw [entry_create]
  split
  · rename_i hy
    rw [hy, hnone]
    exact ⟨nofun, nofun⟩
  · rfl

/-- `open` finds the file at the end of the links, or makes one there. -/
theorem openFile_cases (h : fs.openFile x = some (fs', i)) :
    ∃ final, fs.follow (maxLinks + 1) x = some final ∧ fs'.entry final = some (.file i) ∧
      (fs' = fs ∨ (fs.entry final = none ∧ fs' = fs.create final ∧ i = fs.next)) := by
  obtain ⟨final, hfollow, hopen⟩ := Option.map_eq_some_iff.mp h
  refine ⟨final, hfollow, ?_⟩
  cases hx : fs.entry final with
  | none =>
    rw [hx] at hopen
    cases hopen
    exact ⟨entry_create.trans (if_pos rfl), .inr ⟨rfl, rfl, rfl⟩⟩
  | some node =>
    cases node with
    | file k =>
      rw [hx] at hopen
      cases hopen
      exact ⟨hx, .inl rfl⟩
    | symlink y => exact absurd hx ((exists_of_follow hfollow).2 y)

/-- `open` makes and breaks no link. -/
theorem links_openFile (h : fs.openFile x = some (fs', i)) : fs'.Links y z ↔ fs.Links y z := by
  obtain ⟨final, -, -, rfl | ⟨hnone, rfl, -⟩⟩ := openFile_cases h
  · rfl
  · exact links_create hnone

theorem follow_openFile (h : fs.openFile x = some (fs', i)) : fs'.follow n y = fs.follow n y :=
  follow_congr fun _ _ _ => links_openFile h

theorem find_openFile (h : fs.openFile x = some (fs', i)) : fs'.find y = some i ↔ fs.SameFile x y := by
  obtain ⟨final, hx, hfile, hopen⟩ := openFile_cases h
  rw [find_eq_some_iff]
  simp only [follow_openFile h]
  constructor
  · rintro ⟨final', hy, hentry⟩
    refine ⟨final, final', hx, hy, ?_⟩
    rcases hopen with rfl | ⟨-, rfl, rfl⟩
    · exact .inr ⟨i, hfile, hentry⟩
    · rw [entry_create] at hentry
      split at hentry
      · rename_i heq
        exact .inl heq.symm
      · exact absurd (fs.entry_lt hentry) (Nat.lt_irrefl _)
  · rintro ⟨_, final', hx', hy, hsame⟩
    cases hx.symm.trans hx'
    refine ⟨final', hy, ?_⟩
    rcases hsame with rfl | ⟨k, hk, hk'⟩
    · exact hfile
    · rcases hopen with rfl | ⟨hnone, -⟩
      · cases hfile.symm.trans hk
        exact hk'
      · cases hnone.symm.trans hk

theorem SameFile.of_openFile (h : fs.openFile x = some (fs', i)) : fs.SameFile x x := by
  obtain ⟨final, hx, -⟩ := openFile_cases h
  exact ⟨final, final, hx, hx, .inl rfl⟩

/-- The name that was opened is found at the descriptor's file. -/
theorem find_openFile_self (h : fs.openFile x = some (fs', i)) : fs'.find x = some i :=
  (find_openFile h).mpr (.of_openFile h)

theorem leads_openFile (h : fs.openFile x = some (fs', i)) : fs'.Leads y z ↔ fs.Leads y z := by
  have hlinks : fs'.Links = fs.Links := funext fun _ => funext fun _ => propext (links_openFile h)
  rw [Leads, Leads, hlinks]

/-- What is written through the descriptor is found under every name that is the same file. -/
theorem content_openFile_of_same (h : fs.openFile x = some (fs', i)) (hsame : fs.SameFile x y) :
    (fs'.setData i d).content y = some d := by
  rw [content, show (fs'.setData i d).find y = fs'.find y from rfl, (find_openFile h).mpr hsame]
  exact congrArg some (update_self ..)

/-- All other names keep their contents. -/
theorem content_openFile_of_not_same (h : fs.openFile x = some (fs', i)) (hother : ¬fs.SameFile x y) :
    (fs'.setData i d).content y = fs.content y := by
  have hne : fs'.find y ≠ some i := fun hfind => hother ((find_openFile h).mp hfind)
  obtain ⟨final, hx, hfile, hopen⟩ := openFile_cases h
  have hfind : fs'.find y = fs.find y := by
    rcases hopen with rfl | ⟨hnone, rfl, -⟩
    · rfl
    · rw [find, find, follow_openFile h]
      refine Option.bind_congr fun final' hy => ?_
      rw [entry_create, if_neg]
      rintro rfl
      exact hother ⟨_, _, hx, hy, .inl rfl⟩
  have hdata : ∀ k ≠ i, fs'.data k = fs.data k := by
    intro k hk
    rcases hopen with rfl | ⟨-, rfl, rfl⟩
    · rfl
    · exact update_of_ne hk ..
  rw [content, content, show (fs'.setData i d).find y = fs'.find y from rfl, ← hfind]
  refine Option.map_congr fun k hk => ?_
  have hk : k ≠ i := by
    rintro rfl
    exact hne hk
  exact (update_of_ne hk ..).trans (hdata k hk)

/-! ## Removing and renaming -/

theorem content_unlink : (fs.unlink x).content x = none :=
  content_of_none (entry_unlink.trans (if_pos rfl))

/-- Before it moves an entry to another name, `rename` removes what is there. -/
theorem move_unlink (hne : src ≠ target) : (fs.unlink target).move src target = fs.move src target := by
  unfold move unlink
  simp only [update_of_ne hne, update_idem]

/-- `rename` to a name that was removed. -/
theorem rename_unlink (hsrc : (fs.unlink target).entry src ≠ none) :
    src ≠ target ∧ (fs.unlink target).rename src target = fs.move src target := by
  have htarget : (fs.unlink target).entry target = none := entry_unlink.trans (if_pos rfl)
  have hne : src ≠ target := by
    rintro rfl
    exact hsrc htarget
  refine ⟨hne, ?_⟩
  rw [rename, if_neg, move_unlink hne]
  rintro (heq | ⟨-, hentry⟩)
  · exact hne heq
  · exact hsrc (hentry.trans htarget)

theorem links_move (hsrc : y ≠ src) (htarget : y ≠ target) :
    (fs.move src target).Links y z ↔ fs.Links y z := by
  rw [Links, entry_move, if_neg hsrc, if_neg htarget]
  rfl

theorem links_move_target (hne : src ≠ target) : (fs.move src target).Links target z ↔ fs.Links src z := by
  rw [Links, entry_move, if_neg hne.symm, if_pos rfl]
  rfl

/-- A link that does not lead to the new name shows the same file under it. -/
theorem content_move (hne : src ≠ target) (hfollow : fs.follow (maxLinks + 1) src = some final)
    (hleads : ¬fs.Leads src target) : (fs.move src target).content target = fs.content src := by
  suffices hfind : (fs.move src target).find target = fs.find src by
    rw [content, content, hfind]
    rfl
  by_cases hlink : ∃ y, fs.Links src y
  · obtain ⟨y, hy⟩ := hlink
    have haway : ∀ z, ReflTransGen fs.Links y z → z ≠ src ∧ z ≠ target := by
      intro z hz
      constructor
      · rintro rfl
        exact not_leads_of_follow hfollow .refl (.head' hy hz)
      · rintro rfl
        exact hleads (.head' hy hz)
    have hrest : (fs.move src target).follow maxLinks y = fs.follow maxLinks y :=
      follow_congr fun z hz _ => links_move (haway z hz).1 (haway z hz).2
    rw [hy.follow] at hfollow
    obtain ⟨hsrc, htarget⟩ := haway final (exists_of_follow hfollow).1
    rw [find, find, ((links_move_target hne).mpr hy).follow, hy.follow, hrest, hfollow, Option.bind_some,
      Option.bind_some, entry_move, if_neg hsrc, if_neg htarget]
  · have hlink : ∀ y, ¬fs.Links src y := fun y hy => hlink ⟨y, hy⟩
    rw [find, find, follow_of_not_links hlink, Option.bind_some,
      follow_of_not_links fun y hy => hlink y ((links_move_target hne).mp hy), Option.bind_some, entry_move,
      if_neg hne.symm, if_pos rfl]

/-- A link that leads to the new name becomes a loop there. -/
theorem content_move_of_leads (hne : src ≠ target) (hfollow : fs.follow (maxLinks + 1) src = some final)
    (hleads : fs.Leads src target) : (fs.move src target).content target = none := by
  obtain ⟨y, hy, hreach⟩ := TransGen.head'_iff.mp hleads
  have hmoved : ReflTransGen (fs.move src target).Links y target := by
    have haway : ¬ReflTransGen fs.Links y src :=
      fun h => not_leads_of_follow hfollow .refl (.head' hy h)
    clear hy
    induction hreach using ReflTransGen.head_induction_on with
    | refl => exact .refl
    | @head y z hyz _ ih =>
      by_cases hyt : y = target
      · exact hyt ▸ .refl
      · have hys : y ≠ src := by
          rintro rfl
          exact haway .refl
        exact .head ((links_move hys hyt).mpr hyz) (ih fun h => haway (.head hyz h))
  have hloop : (fs.move src target).Leads target target := .head' ((links_move_target hne).mpr hy) hmoved
  rw [content, find, follow_of_loop hloop]
  rfl

/-- `rename` shows the file of one name under the other, unless the one is a link that leads to the other. -/
theorem content_rename (hfollow : fs.follow (maxLinks + 1) src = some final)
    (hleads : ¬fs.Leads src target) : (fs.rename src target).content target = fs.content src := by
  unfold rename
  split
  · rename_i hsame
    rcases hsame with rfl | ⟨hfile, hentry⟩
    · rfl
    · obtain ⟨k, hk⟩ := Option.isSome_iff_exists.mp hfile
      rw [content_of_file (inode?_eq_some_iff.mp hk), content_of_file (hentry ▸ inode?_eq_some_iff.mp hk)]
  · rename_i hother
    exact content_move (fun heq => hother (.inl heq)) hfollow hleads

theorem content_rename_of_leads (hfollow : fs.follow (maxLinks + 1) src = some final)
    (hleads : fs.Leads src target) : (fs.rename src target).content target = none := by
  have hne : src ≠ target := by
    rintro rfl
    exact not_leads_of_follow hfollow .refl hleads
  obtain ⟨y, hy, -⟩ := TransGen.head'_iff.mp hleads
  rw [rename, if_neg]
  · exact content_move_of_leads hne hfollow hleads
  · rintro (heq | ⟨hfile, -⟩)
    · exact hne heq
    · rw [show fs.entry src = _ from hy] at hfile
      cases hfile

end Files
