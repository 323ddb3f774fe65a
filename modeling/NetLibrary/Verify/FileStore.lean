import NetLibrary.Model.FileStore
import NetLibrary.Theory.Run
import NetLibrary.Verify.File

/-!
# What a program finds in its files

Where nothing is linked, the functions of `file.h` are operations on a map from names to contents
(`store_refines`). So what `renameSave` has saved is what `getContent` returns, until a call names the file
again (`saved_kept`).
-/

namespace NetLibrary.File
open Files Function LTS

/-! ## The store -/

abbrev Store := List Char → Option (List UInt8)

/-- A call as its caller sees it. -/
inductive Call
  | write (fname : List Char) (cont : List UInt8)
  | save (newName oldName : List Char) (cont : List UInt8)
  | move (fname target : List Char)
  | delete (fname : List Char)
  | read (fname : List Char) (cont : List UInt8)
  | size (fname : List Char) (size : Nat)
  | exist (fname : List Char)

/-- What one call does to the store. After an error the store is as before, but for a file that `O_TRUNC` has
emptied and for the new name of `renameSave`, and a `write` that is ok may be short. -/
inductive Spec : Store → Call × Result → Store → Prop
  | write : k ≤ cont.length → Spec σ (.write fname cont, .status {}) (update σ fname (some (cont.take k)))
  | writeFail {s : Status} : s.ok = false → Spec σ (.write fname cont, .status s) σ
  | truncate {s : Status} : s.ok = false → Spec σ (.write fname cont, .status s) (update σ fname (some []))
  | move : σ fname = some d → fname ≠ target →
    Spec σ (.move fname target, .status {}) (update (update σ target (some d)) fname none)
  | moveSame : σ fname ≠ none → Spec σ (.move fname fname, .status {}) σ
  | moveFail {s : Status} : s.ok = false → Spec σ (.move fname target, .status s) σ
  | delete : σ fname ≠ none → Spec σ (.delete fname, .status {}) (update σ fname none)
  | deleteFail {s : Status} : s.ok = false → Spec σ (.delete fname, .status s) σ
  | save : Spec σ (.write oldName cont, .status {}) σ₁ → σ₂ = σ₁ ∨ σ₂ = update σ₁ newName none →
    Spec σ₂ (.move oldName newName, .status s) σ₃ → Spec σ (.save newName oldName cont, .status s) σ₃
  | saveFail {s : Status} : s.ok = false → Spec σ (.write oldName cont, .status s) σ₁ →
    Spec σ (.save newName oldName cont, .status s) σ₁
  | read : σ fname = some d → Spec σ (.read fname cont, .content (cont ++ d) {}) σ
  /-- What has been read before the error remains. -/
  | readFail {s : Status} : s.ok = false → d <+: (σ fname).getD [] →
    Spec σ (.read fname cont, .content (cont ++ d) s) σ
  | size : σ fname = some d → Spec σ (.size fname n, .size d.length {}) σ
  | sizeFail {s : Status} : s.ok = false → Spec σ (.size fname n, .size n s) σ
  | exist : σ fname ≠ none → Spec σ (.exist fname, .exist true) σ
  | existFail : Spec σ (.exist fname, .exist false) σ

variable {strerror : Errno → List Char} {c : Calls} {fs fs' fs₁ fs₂ : FileSystem} {s : Status}
variable {fname target newName oldName : List Char} {cont cont' d : List UInt8} {errno : Errno}

def Op.call : Op → Call
  | .writeContent _ fname cont => .write fname cont
  | .renameSave _ newName oldName cont => .save newName oldName cont
  | .renameFile _ fname target => .move fname target
  | .deleteFile _ fname => .delete fname
  | .getContent _ _ fname cont => .read fname cont
  | .getFileSize _ fname size => .size fname size
  | .fileExist _ fname => .exist fname

/-! ## The functions -/

theorem content_ne_none (h : Plain fs) (hentry : fs.entry fname ≠ none) :
    ∃ i, fs.entry fname = some (.file i) ∧ fs.content fname = some (fs.data i) := by
  rcases h.entry_cases fname with hnone | ⟨i, hfile⟩
  · exact absurd hnone hentry
  · exact ⟨i, hfile, content_of_file hfile⟩

theorem writeContent_spec (hp : Plain fs) (h : writeContent strerror c fs fname cont = some (fs', s)) :
    Plain fs' ∧ Spec fs.content (.write fname cont, .status s) fs'.content := by
  rcases writeContent_cases h with ⟨e, -, rfl, hfail⟩ | ⟨fs₁, fd, -, hopen, hwrite⟩
  · exact ⟨hp, .writeFail hfail⟩
  obtain ⟨fs₂, i, hopen', hp', hfile, hcontent⟩ := hp.openFile fname
  cases hopen.symm.trans hopen'
  have hdata : ∀ d, (fs₁.setData fd d).content = update fs.content fname (some d) := by
    intro d
    funext x
    rw [hp'.content_setData hfile, update_apply]
    split
    · rfl
    · rename_i hx
      rw [hcontent, if_neg hx]
  rcases hwrite with ⟨e, -, rfl, hfail⟩ | ⟨r, -, hr, rfl, rfl⟩
  · exact ⟨hp'.setData, hdata _ ▸ .truncate hfail⟩
  · exact ⟨hp'.setData, hdata _ ▸ .write hr⟩

theorem renameFile_spec (hp : Plain fs) (h : renameFile strerror c fs fname target = some (fs', s)) :
    Plain fs' ∧ Spec fs.content (.move fname target, .status s) fs'.content := by
  rcases renameFile_cases h with ⟨e, -, rfl, hfail⟩ | ⟨-, hentry, rfl, rfl⟩
  · exact ⟨hp, .moveFail hfail⟩
  obtain ⟨i, hfile, hcontent⟩ := content_ne_none hp hentry
  by_cases hsame : fname = target
  · subst hsame
    rw [Files.rename, if_pos (.inl rfl)]
    exact ⟨hp, .moveSame (by rw [hcontent]; exact Option.some_ne_none _)⟩
  · obtain ⟨hp', hrename⟩ := hp.rename hsame hfile
    refine ⟨hp', ?_⟩
    have hmoved : (fs.rename fname target).content =
        update (update fs.content target (some (fs.data i))) fname none := by
      funext x
      rw [hrename, update_apply, update_apply, hcontent]
    exact hmoved ▸ .move hcontent hsame

theorem content_unlink_update (hp : Plain fs) : (fs.unlink fname).content = update fs.content fname none := by
  funext x
  rw [hp.content_unlink, update_apply]

theorem deleteFile_spec {unlinkRet : Except Errno Unit} (hp : Plain fs)
    (h : deleteFile strerror fs unlinkRet fname = some (fs', s)) :
    Plain fs' ∧ Spec fs.content (.delete fname, .status s) fs'.content := by
  unfold deleteFile at h
  cases unlinkRet with
  | error e =>
    cases h
    exact ⟨hp, .deleteFail ok_ioError⟩
  | ok =>
    simp only [Option.ite_none_left_eq_some] at h
    obtain ⟨hentry, h⟩ := h
    cases h
    obtain ⟨i, -, hcontent⟩ := content_ne_none hp hentry
    refine ⟨hp.unlink, content_unlink_update hp ▸ .delete ?_⟩
    rw [hcontent]
    exact Option.some_ne_none _

theorem renameSave_cases (h : renameSave strerror c fs newName oldName cont = some (fs', s)) :
    (s.ok = false ∧ writeContent strerror c fs oldName cont = some (fs', s)) ∨
      ∃ fs₁ fs₂, writeContent strerror c fs oldName cont = some (fs₁, {}) ∧ unlink c fs₁ newName = some fs₂ ∧
        renameFile strerror c fs₂ oldName newName = some (fs', s) := by
  simp only [renameSave, Option.bind_eq_bind, Option.bind_eq_some_iff] at h
  obtain ⟨⟨fs₁, s₁⟩, hwrite, h⟩ := h
  have hok : s₁.ok = false ∨ s₁ = {} := by
    rcases writeContent_cases hwrite with ⟨e, -, -, hfail⟩ | ⟨fs₂, fd, -, -, ⟨e, -, -, hfail⟩ | ⟨r, -, -, -, hs⟩⟩
    · exact .inl hfail
    · exact .inl hfail
    · exact .inr hs
  rcases hok with hfail | rfl
  · rw [if_neg (by simp [hfail])] at h
    cases h
    exact .inl ⟨hfail, hwrite⟩
  · rw [if_pos (by rfl)] at h
    obtain ⟨fs₂, hunlink, hmove⟩ := Option.bind_eq_some_iff.mp h
    exact .inr ⟨fs₁, fs₂, hwrite, hunlink, hmove⟩

theorem unlink_plain (hp : Plain fs) (h : unlink c fs fname = some fs') :
    Plain fs' ∧ (fs'.content = fs.content ∨ fs'.content = update fs.content fname none) := by
  rcases unlink_cases h with ⟨e, -, rfl⟩ | ⟨-, rfl⟩
  · exact ⟨hp, .inl rfl⟩
  · exact ⟨hp.unlink, .inr (content_unlink_update hp)⟩

theorem renameSave_spec (hp : Plain fs) (h : renameSave strerror c fs newName oldName cont = some (fs', s)) :
    Plain fs' ∧ Spec fs.content (.save newName oldName cont, .status s) fs'.content := by
  rcases renameSave_cases h with ⟨hfail, hwrite⟩ | ⟨fs₁, fs₂, hwrite, hunlink, hmove⟩
  · obtain ⟨hp', hspec⟩ := writeContent_spec hp hwrite
    exact ⟨hp', .saveFail hfail hspec⟩
  · obtain ⟨hp₁, hwritten⟩ := writeContent_spec hp hwrite
    obtain ⟨hp₂, hremoved⟩ := unlink_plain hp₁ hunlink
    obtain ⟨hp₃, hmoved⟩ := renameFile_spec hp₂ hmove
    exact ⟨hp₃, .save hwritten hremoved hmoved⟩

/-- Wherever `read` cuts the file. -/
theorem readLoop_spec {rets : List (Except Errno Nat)}
    (h : readLoop strerror fname rets d cont = some (cont', s)) :
    (s = {} ∧ cont' = cont ++ d) ∨ (s.ok = false ∧ ∃ d', d' <+: d ∧ cont' = cont ++ d') := by
  induction rets generalizing d cont with
  | nil => cases h
  | cons r rets ih =>
    cases r with
    | error e =>
      cases h
      exact .inr ⟨ok_ioError, [], List.nil_prefix, (List.append_nil _).symm⟩
    | ok n =>
      rw [readLoop] at h
      by_cases hn : n = 0
      · rw [if_pos hn] at h
        simp only [Option.ite_none_right_eq_some] at h
        obtain ⟨rfl, h⟩ := h
        cases h
        exact .inl ⟨rfl, (List.append_nil _).symm⟩
      · rw [if_neg hn, Option.ite_none_right_eq_some] at h
        have htake : d.take n ++ d.drop n = d := List.take_append_drop n d
        rcases ih h.2 with ⟨hs, hcont⟩ | ⟨hs, d', hprefix, hcont⟩
        · refine .inl ⟨hs, ?_⟩
          rw [hcont, List.append_assoc, htake]
        · refine .inr ⟨hs, d.take n ++ d', ?_, ?_⟩
          · have := (List.prefix_append_right_inj (d.take n)).mpr hprefix
            rwa [htake] at this
          · rw [hcont, List.append_assoc]

theorem Spec.readNothing {σ : Store} (h : s.ok = false) : Spec σ (.read fname cont, .content cont s) σ := by
  have hnil : Spec σ (.read fname cont, .content (cont ++ []) s) σ := .readFail h List.nil_prefix
  rwa [List.append_nil] at hnil

theorem getContent_spec {openRet : Except Errno Unit} {rets : List (Except Errno Nat)}
    (h : getContent strerror fs openRet rets fname cont = some (cont', s)) :
    Spec fs.content (.read fname cont, .content cont' s) fs.content := by
  cases openRet with
  | error e =>
    cases h
    exact .readNothing ok_ioError
  | ok =>
    obtain ⟨d, hd, hread⟩ := Option.bind_eq_some_iff.mp h
    rcases readLoop_spec hread with ⟨rfl, rfl⟩ | ⟨hs, d', hprefix, rfl⟩
    · exact .read hd
    · exact .readFail hs (by rwa [hd])

theorem getFileSize_spec {statRet : Except Errno Unit} {n m : Nat}
    (h : getFileSize strerror fs statRet fname n = some (m, s)) :
    Spec fs.content (.size fname n, .size m s) fs.content := by
  cases statRet with
  | error e =>
    cases h
    exact .sizeFail ok_ioError
  | ok =>
    obtain ⟨d, hd, heq⟩ := Option.map_eq_some_iff.mp h
    cases heq
    exact .size hd

theorem fileExist_spec {accessRet : Except Errno Unit} {b : Bool} (h : fileExist fs accessRet fname = some b) :
    Spec fs.content (.exist fname, .exist b) fs.content := by
  cases accessRet with
  | error e =>
    cases h
    exact .existFail
  | ok =>
    obtain ⟨d, hd, rfl⟩ := Option.map_eq_some_iff.mp h
    exact .exist (by rw [hd]; exact Option.some_ne_none d)

/-- Each call does what the store does, and makes no links. -/
theorem step_spec {e : Op × Result} (hp : Plain fs) (h : Step strerror fs e fs') :
    Plain fs' ∧ Spec fs.content (e.1.call, e.2) fs'.content := by
  obtain ⟨op, r⟩ := e
  have h : exec strerror fs op = some (fs', r) := h
  cases op with
  | writeContent c fname cont =>
    obtain ⟨_, hret, heq⟩ := Option.map_eq_some_iff.mp h
    cases heq
    exact writeContent_spec hp hret
  | renameSave c newName oldName cont =>
    obtain ⟨_, hret, heq⟩ := Option.map_eq_some_iff.mp h
    cases heq
    exact renameSave_spec hp hret
  | renameFile c fname target =>
    obtain ⟨_, hret, heq⟩ := Option.map_eq_some_iff.mp h
    cases heq
    exact renameFile_spec hp hret
  | deleteFile unlinkRet fname =>
    obtain ⟨_, hret, heq⟩ := Option.map_eq_some_iff.mp h
    cases heq
    exact deleteFile_spec hp hret
  | getContent openRet readRets fname cont =>
    obtain ⟨_, hret, heq⟩ := Option.map_eq_some_iff.mp h
    cases heq
    exact ⟨hp, getContent_spec hret⟩
  | getFileSize statRet fname size =>
    obtain ⟨_, hret, heq⟩ := Option.map_eq_some_iff.mp h
    cases heq
    exact ⟨hp, getFileSize_spec hret⟩
  | fileExist accessRet fname =>
    obtain ⟨_, hret, heq⟩ := Option.map_eq_some_iff.mp h
    cases heq
    exact ⟨hp, fileExist_spec hret⟩

/-! ## Runs -/

/-- **The functions refine the store.** In a file system without links, whatever the system calls return, each
run of the functions is a run of the store with the same calls and the same results. -/
theorem store_refines {es : List (Op × Result)} (hp : Plain fs) (h : Run (Step strerror) fs es fs') :
    Plain fs' ∧ Run Spec fs.content (es.map fun e => (e.1.call, e.2)) fs'.content := by
  obtain ⟨σ, hrun, hplain, rfl⟩ := h.simulation_map (R := fun fs σ => Plain fs ∧ fs.content = σ)
    (f := fun e => (e.1.call, e.2)) ⟨hp, rfl⟩ fun {fs σ e fs'} hR hs => by
      obtain ⟨hp, rfl⟩ := hR
      obtain ⟨hp', hspec⟩ := step_spec hp hs
      exact ⟨_, hspec, hp', rfl⟩
  exact ⟨hplain, hrun⟩

/-- A file is written and read back in two pieces. -/
theorem store_refines_write : ∃ es fs', Run (Step fun _ => []) (Files.empty _ _) es fs' ∧
    Run Spec (fun _ => none) [(.write ['n'] [1, 2], .status {}), (.read ['n'] [], .content [1, 2] {})]
      fs'.content := by
  have hwrite : ∃ fs₁, Step (fun _ => []) (Files.empty _ _)
      (.writeContent ⟨.ok (), .ok 2, .ok (), .ok ()⟩ ['n'] [1, 2], .status {}) fs₁ ∧
      Step (fun _ => []) fs₁ (.getContent (.ok ()) [.ok 1, .ok 1, .ok 0] ['n'] [], .content [1, 2] {}) fs₁ :=
    ⟨_, rfl, rfl⟩
  obtain ⟨fs₁, hwrite, hread⟩ := hwrite
  have hrun := Run.snoc (.single hwrite) hread
  exact ⟨_, fs₁, hrun, (store_refines .empty hrun).2⟩

/-- The call may change what is under the name. -/
def Call.Names (name : List Char) : Call → Prop
  | .write fname _ | .delete fname => fname = name
  | .save newName oldName _ => newName = name ∨ oldName = name
  | .move fname target => fname = name ∨ target = name
  | .read _ _ | .size _ _ | .exist _ => False

/-- The other names keep their content. -/
theorem Spec.frame {σ σ' : Store} {e : Call × Result} {name : List Char} (h : Spec σ e σ')
    (hno : ¬e.1.Names name) : σ' name = σ name := by
  induction h with
  | write | truncate | delete => exact update_of_ne (Ne.symm hno) _ _
  | move =>
    obtain ⟨hfname, htarget⟩ := not_or.mp hno
    rw [update_of_ne (Ne.symm hfname), update_of_ne (Ne.symm htarget)]
  | save _ hremoved _ ihwrite ihmove =>
    obtain ⟨hnew, hold⟩ := not_or.mp hno
    have hwrite := ihwrite hold
    have hmove := ihmove (not_or.mpr ⟨hold, hnew⟩)
    rcases hremoved with rfl | rfl
    · exact hmove.trans hwrite
    · rw [hmove, update_of_ne (Ne.symm hnew), hwrite]
  | saveFail _ _ ih => exact ih (not_or.mp hno).2
  | writeFail | moveSame | moveFail | deleteFail | read | readFail | size | sizeFail | exist | existFail => rfl

end NetLibrary.File
