import Mathlib.Data.List.Nodup
import NetLibrary.Theory.Run
import NetLibrary.Model.Logger

/-!
# Rotation and the records that were written

A rotation takes its name from the minute of its time, and `rename` replaces a file that has the name
already. As long as the names differ, the rotated files and the current log hold all records in order
(`Inv`); so the condition is that no two rotations have the same date, as far as it fits into the name.
Whether that can happen at all depends on the interval: `distinct_minutes_iff`.
-/

namespace NetLibrary.Logger
open LTS Files

variable {ρ : Type} {L : Logger} {s s' : Sys ρ} {c : Call ρ} {es : List (Call ρ)} {now t u : Int}

/-! ## The names -/

/-- As much of the date as fits into the name of a rotated file. -/
def visibleDate (L : Logger) (t : Int) : Path := (L.date t).take (1024 * 4 - 1 - L.filename.length)

theorem newName_eq_iff : L.newName t = L.newName u ↔ L.visibleDate t = L.visibleDate u := by
  rw [newName, newName, List.take_append, List.take_append, List.append_cancel_left_eq]
  rfl

/-- A file keeps its name only if its path fills the whole array. -/
theorem newName_self (h : L.newName t = L.filename) (u : Int) : L.newName u = L.filename := by
  have hlen := congrArg List.length h
  have hdate : 0 < (L.date t).length := by simp [date]
  rw [newName, List.length_take, List.length_append] at hlen
  have hfull : L.filename.length = 1024 * 4 - 1 := by omega
  rw [newName, List.take_append_of_le_length (Nat.le_of_eq hfull.symm),
    List.take_of_length_le (Nat.le_of_eq hfull)]

/-- The file names of the rotations so far. -/
def names (L : Logger) (s : Sys ρ) : List Path := s.rotated.map L.newName

/-- The rotated files and the current log, in the order in which they were written. -/
def logs (L : Logger) (s : Sys ρ) : List Path :=
  if L.filename ∈ names L s then names L s else names L s ++ [L.filename]

/-- The records in a file. -/
def records (files : Files Path ρ) (name : Path) : List ρ := (files.content name).getD []

/-- No two rotations had the same name, and the files hold every record that was written, in order. -/
def Safe (L : Logger) (s : Sys ρ) : Prop :=
  (names L s).Nodup ∧ (logs L s).flatMap (records s.files) = s.written

theorem logs_of_nodup (h : (names L s).Nodup) :
    ∃ pre, logs L s = pre ++ [L.filename] ∧ L.filename ∉ pre := by
  rw [logs]
  split
  · rename_i hmem
    obtain ⟨t, -, ht⟩ := List.mem_map.mp hmem
    have hall : ∀ n ∈ names L s, n = L.filename := by
      intro n hn
      obtain ⟨u, -, rfl⟩ := List.mem_map.mp hn
      exact newName_self ht u
    have hreplicate := List.eq_replicate_of_mem hall
    rw [hreplicate, List.nodup_replicate] at h
    have hpos := List.length_pos_of_mem hmem
    rw [hreplicate, Nat.le_antisymm h hpos]
    exact ⟨[], rfl, List.not_mem_nil⟩
  · rename_i hmem
    exact ⟨_, rfl, hmem⟩

/-! ## The steps -/

/-- The descriptor is that of the log, and both times of the last rotation are the same. -/
structure Opened (L : Logger) (s : Sys ρ) : Prop where
  plain : Plain s.files
  current : s.files.entry L.filename = some (.file s.fd)
  same : s.lastRotate = s.realRotate

structure Inv (L : Logger) (s : Sys ρ) : Prop extends Opened L s where
  safe : Safe L s

theorem Inv.init {start : Int} : Inv L (Sys.init L ρ start) where
  plain := Plain.empty.create
  current := entry_create.trans (if_pos rfl)
  same := rfl
  safe := by
    refine ⟨List.nodup_nil, ?_⟩
    simp [logs, names, Sys.init, records, Plain.empty.content_create]

/-- A record goes to the end of the current log. -/
theorem Inv.write {record : ρ} (h : Inv L s) : Inv L
    { s with
      files := s.files.setData s.fd (s.files.data s.fd ++ [record])
      written := s.written ++ [record] } where
  plain := h.plain.setData
  current := h.current
  same := h.same
  safe := by
    obtain ⟨hnodup, hwritten⟩ := h.safe
    obtain ⟨pre, hlogs, hpre⟩ := logs_of_nodup hnodup
    have hcurrent : records s.files L.filename = s.files.data s.fd := by
      rw [records, content_of_file h.current]
      rfl
    have hrecords : ∀ n, records (s.files.setData s.fd (s.files.data s.fd ++ [record])) n =
        if n = L.filename then s.files.data s.fd ++ [record] else records s.files n := by
      intro n
      rw [records, h.plain.content_setData h.current]
      split <;> rfl
    refine ⟨hnodup, ?_⟩
    change (logs L s).flatMap _ = _
    rw [hlogs, List.flatMap_append, List.flatMap_singleton] at hwritten ⊢
    rw [hrecords, if_pos rfl, ← hwritten, hcurrent, ← List.append_assoc]
    congr 2
    refine List.flatMap_congr fun n hn => ?_
    rw [hrecords, if_neg (ne_of_mem_of_not_mem hn hpre)]

theorem names_snoc (h : s'.rotated = s.rotated ++ [now]) : names L s' = names L s ++ [L.newName now] := by
  rw [names, h, List.map_append]
  rfl

theorem nodup_snoc {α : Type} {l : List α} {n : α} (h : l.Nodup) (hn : n ∉ l) : (l ++ [n]).Nodup := by
  rw [← List.concat_eq_append]
  exact List.Nodup.concat hn h

/-- What `rename` and `open` leave, in a logger that has not lost a file. -/
theorem rotate_eq {files : Files Path ρ} (hplain : Plain files)
    (hfiles : files = s.files.rename L.filename (L.newName now)) :
    ∃ files' fd, L.rotate s now = { s with files := files', fd, rotated := s.rotated ++ [now] } ∧
      Plain files' ∧ files'.entry L.filename = some (.file fd) ∧
        ∀ n, records files' n = records files n := by
  obtain ⟨files', fd, hopen, hplain', hentry, hcontent⟩ := hplain.openFile L.filename
  refine ⟨files', fd, ?_, hplain', hentry, fun n => ?_⟩
  · rw [Logger.rotate, ← hfiles, hopen]
  · rw [records, hcontent, records]
    split
    · rename_i hn
      rw [hn]
      rfl
    · rfl

/-- Every rotation takes its time down, and leaves the log open. -/
theorem Opened.rotate (h : Opened L s) : Opened L (L.rotate s now) ∧
    (L.rotate s now).rotated = s.rotated ++ [now] ∧ (L.rotate s now).lastRotate = s.lastRotate ∧
      (L.rotate s now).clock = s.clock := by
  have hplain : Plain (s.files.rename L.filename (L.newName now)) := by
    by_cases hself : L.filename = L.newName now
    · rw [rename, if_pos (.inl hself)]
      exact h.plain
    · exact (h.plain.rename hself h.current).1
  obtain ⟨files', fd, hrotate, hplain', hentry, -⟩ := rotate_eq hplain rfl
  rw [hrotate]
  exact ⟨⟨hplain', hentry, h.same⟩, rfl, rfl, rfl⟩

/-- A rotation under a new name moves the records of the current log there. -/
theorem Inv.rotate (h : Inv L s) (hnew : L.newName now ∉ names L s) :
    Inv L (L.rotate s now) := by
  obtain ⟨hnodup, hwritten⟩ := h.safe
  have hnodup' := nodup_snoc hnodup hnew
  by_cases hself : L.newName now = L.filename
  · -- Every rotation has the name of the log itself, so this is the first.
    have hfirst : s.rotated = [] := by
      by_contra hne
      obtain ⟨t, ht⟩ := List.exists_mem_of_ne_nil _ hne
      exact hnew (List.mem_map.mpr ⟨t, ht, (newName_self hself t).trans hself.symm⟩)
    have hnone : names L s = [] := by rw [names, hfirst]; rfl
    have hfiles : s.files = s.files.rename L.filename (L.newName now) := by
      rw [rename, if_pos (.inl hself.symm)]
    obtain ⟨files', fd, hrotate, hplain, hentry, hrecords⟩ := rotate_eq h.plain hfiles
    rw [hrotate]
    refine ⟨⟨hplain, hentry, h.same⟩, ?_⟩
    rw [Safe, logs, names_snoc (s := s) rfl]
    refine ⟨hnodup', ?_⟩
    rw [logs, hnone] at hwritten
    rw [hnone, hself]
    simpa [hrecords] using hwritten
  · have hfilename : L.filename ∉ names L s := by
      intro hmem
      obtain ⟨t, -, ht⟩ := List.mem_map.mp hmem
      exact hself (newName_self ht now)
    obtain ⟨hplain, hcontent⟩ := h.plain.rename (Ne.symm hself) h.current
    obtain ⟨files', fd, hrotate, hplain', hentry, hrecords⟩ := rotate_eq hplain rfl
    rw [hrotate]
    refine ⟨⟨hplain', hentry, h.same⟩, ?_⟩
    rw [Safe, logs, names_snoc (s := s) rfl]
    refine ⟨hnodup', ?_⟩
    have hmoved : ∀ n, records files' n = if n = L.filename then []
        else if n = L.newName now then records s.files L.filename else records s.files n := by
      intro n
      rw [hrecords, records, hcontent]
      split
      · rfl
      split <;> rfl
    have hsame : (names L s).flatMap (records files') = (names L s).flatMap (records s.files) := by
      refine List.flatMap_congr fun n hn => ?_
      rw [hmoved, if_neg (ne_of_mem_of_not_mem hn hfilename), if_neg (ne_of_mem_of_not_mem hn hnew)]
    rw [logs, if_neg hfilename, List.flatMap_append, List.flatMap_singleton] at hwritten
    rw [if_neg (by simp [hfilename, Ne.symm hself]), List.flatMap_append, List.flatMap_append, hsame,
      List.flatMap_singleton, List.flatMap_singleton, hmoved, hmoved, if_pos rfl, if_neg hself, if_pos rfl,
      List.append_nil]
    exact hwritten

/-! ## Runs -/

/-- A call of `logv` at this time rotates. -/
def Rotates (L : Logger) (s : Sys ρ) (c : Call ρ) : Prop :=
  c.level ≤ L.level ∧ L.filename ≠ [] ∧ L.bucket c.now ≠ L.bucket s.lastRotate

/-- A call that rotates does so at another date than the rotations before. -/
def NewDate (L : Logger) (s : Sys ρ) (c : Call ρ) : Prop :=
  Rotates L s c → ∀ t ∈ s.rotated, L.visibleDate t ≠ L.visibleDate c.now

theorem newName_not_mem_iff : L.newName now ∉ names L s ↔
    ∀ t ∈ s.rotated, L.visibleDate t ≠ L.visibleDate now := by
  simp only [names, List.mem_map, not_exists, not_and, ← newName_eq_iff, ne_eq]

/-- `logv` after the test of the level rotates or not, and writes its record. -/
theorem step_cases (h : Opened L s) (hs : step L s c = some s') :
    (L.level < c.level ∧ s' = { s with clock := c.now }) ∨
    ∃ u : Sys ρ, s' = { u with
        files := u.files.setData u.fd (u.files.data u.fd ++ [c.record])
        written := u.written ++ [c.record] } ∧
      ((¬Rotates L s c ∧ u = { s with clock := c.now }) ∨
        (Rotates L s c ∧
          u = L.rotate { s with clock := c.now, lastRotate := c.now, realRotate := c.now } c.now)) := by
  simp only [step, Option.ite_none_right_eq_some, Option.some.injEq] at hs
  obtain ⟨-, rfl⟩ := hs
  rw [logv]
  split
  · rename_i hlevel
    exact .inl ⟨hlevel, rfl⟩
  · rename_i hlevel
    refine .inr ⟨_, rfl, ?_⟩
    rw [maybeRotate]
    split
    · rename_i hreturn
      exact .inl ⟨fun hrot => hreturn.elim hrot.2.1 hrot.2.2, rfl⟩
    · rename_i hrot
      rw [not_or] at hrot
      refine .inr ⟨⟨Nat.not_lt.mp hlevel, hrot⟩, if_neg ?_⟩
      rw [← h.same]
      exact Ne.symm hrot.2

/-- The rotation of a call reads the clock and stores the time first. -/
theorem Opened.stored (h : Opened L s) :
    Opened L { s with clock := now, lastRotate := now, realRotate := now } :=
  ⟨h.plain, h.current, rfl⟩

theorem Inv.step (h : Inv L s) (hnew : NewDate L s c) (hs : step L s c = some s') : Inv L s' := by
  have hclock : Inv L { s with clock := c.now } := ⟨⟨h.plain, h.current, h.same⟩, h.safe⟩
  have hstored : Inv L { s with clock := c.now, lastRotate := c.now, realRotate := c.now } :=
    ⟨h.stored, h.safe⟩
  rcases step_cases h.toOpened hs with ⟨-, rfl⟩ | ⟨u, rfl, ⟨-, rfl⟩ | ⟨hrot, rfl⟩⟩
  · exact hclock
  · exact hclock.write
  · exact (hstored.rotate (newName_not_mem_iff.mpr (hnew hrot))).write

/-- A rotation at a date that was there before shows in the names. -/
theorem newDate_of_safe (h : Inv L s) (hs : Logger.step L s c = some s') (hsafe : Safe L s') :
    NewDate L s c := by
  intro hrot
  rcases step_cases h.toOpened hs with ⟨hlevel, -⟩ | ⟨u, rfl, ⟨hno, -⟩ | ⟨-, rfl⟩⟩
  · exact absurd hrot.1 (Nat.not_le.mpr hlevel)
  · exact absurd hrot hno
  · have hstored : Opened L { s with clock := c.now, lastRotate := c.now, realRotate := c.now } := h.stored
    have hnodup : (names L (L.rotate _ c.now)).Nodup := hsafe.1
    rw [names_snoc hstored.rotate.2.1, List.nodup_append] at hnodup
    exact newName_not_mem_iff.mp fun hmem =>
      hnodup.2.2 _ hmem _ (List.mem_singleton.mpr rfl) rfl

/-- The runs that are `Safe` after every call are those whose rotations each have a new date. -/
theorem run_safe_iff {start : Int} :
    Run (fun s c s' => Safe L s' ∧ ofFun (Logger.step L) s c s') (.init L ρ start) es s ↔
      Run (guarded (NewDate L) (ofFun (Logger.step L))) (.init L ρ start) es s :=
  run_guarded_iff_of_invariant .init (fun h hnew hs => h.step hnew hs) fun h hs =>
    ⟨newDate_of_safe h hs, fun hnew => (h.step hnew hs).safe⟩

end NetLibrary.Logger
