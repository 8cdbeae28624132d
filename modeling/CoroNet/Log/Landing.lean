import CoroNet.Log.LogFile
import Mathlib.Data.List.Forall2
import Mathlib.Data.List.Induction

namespace CoroNet

/-- The C library while the clock shows `now`. -/
def Libc.showing (libc : Libc) (now : Int) : Libc := { libc with time := fun _ => now }

namespace LogFile

/-- A chunk, and what the clock shows while it is appended. -/
structure Entry where
  now : Int
  logline : List UInt8

/-- A log file in use. In `landed` each chunk that was written stands with the
number of files opened before the one that took it. -/
structure Logged where
  log : LogFile
  landed : List (Nat × Entry) := []

namespace Logged

/-- The clock shows `opening` to the constructor. -/
def start (libc : Libc) (rollSize flushInterval checkEveryN opening : Int) : Logged where
  log := make (libc.showing opening) rollSize flushInterval checkEveryN

def append (libc : Libc) (s : Logged) (e : Entry) : Logged where
  log := s.log.append (libc.showing e.now) e.logline
  landed := s.landed ++ s.log.file.toList.map fun _ => (s.log.closed.length, e)

def after (libc : Libc) (s : Logged) (entries : List Entry) : Logged := entries.foldl (append libc) s

end Logged

/-- The content is made of parts of the chunks that landed in the `k`-th file, in their order. -/
def MadeOf (landed : List (Nat × Entry)) (k : Nat) (content : List UInt8) : Prop :=
  ∃ parts : List (List UInt8), content = parts.flatten ∧
    List.Forall₂ (fun part p => part <+: p.2.logline) parts (landed.filter fun p => p.1 = k)

/-- Each file holds what landed in it, and nothing else. -/
structure Accounts (s : Logged) : Prop where
  numbers : ∀ p ∈ s.landed, p.1 < s.log.files.length
  contents : ∀ k content, (s.log.files.map AppendFile.content)[k]? = some content → MadeOf s.landed k content

variable {libc : Libc} {f : LogFile} {file : AppendFile} {k : Nat} {landed : List (Nat × Entry)} {e : Entry}
  {s : Logged} {content part : List UInt8}

theorem Logged.append_log (libc : Libc) (s : Logged) (e : Entry) :
    (s.append libc e).log = s.log.append (libc.showing e.now) e.logline := rfl

theorem Logged.append_none (libc : Libc) (closed : s.log.file = none) (e : Entry) : s.append libc e = s := by
  simp [Logged.append, LogFile.append, closed]

theorem Logged.append_landed (libc : Libc) (opened : s.log.file = some file) (e : Entry) :
    (s.append libc e).landed = s.landed ++ [(s.log.closed.length, e)] := by
  simp [Logged.append, opened]

theorem landed_subset (libc : Libc) (s : Logged) (entries : List Entry) :
    ∀ p ∈ (s.after libc entries).landed, p ∈ s.landed ∨ p.2 ∈ entries := by
  induction entries generalizing s with
  | nil => exact fun p member => Or.inl member
  | cons e rest ih =>
    intro p member
    rcases ih (s.append libc e) p member with before | later
    · rcases List.mem_append.mp before with old | new
      · exact Or.inl old
      · obtain ⟨file, -, rfl⟩ := List.mem_map.mp new
        exact Or.inr List.mem_cons_self
    · exact Or.inr (List.mem_cons_of_mem e later)

theorem append_content (file : AppendFile) (fwrite : Nat → Nat) (logline : List UInt8) :
    ∃ part, part <+: logline ∧ (file.append fwrite logline).content = file.content ++ part := by
  unfold AppendFile.append
  split
  · exact ⟨[], List.nil_prefix, (List.append_nil _).symm⟩
  · exact ⟨_, List.take_prefix _ _, rfl⟩

theorem flush_content (file : AppendFile) : file.flush.content = file.content := by
  unfold AppendFile.flush
  split <;> rfl

/-- A roll leaves what the files hold, and may add an empty one. -/
theorem rollFile_contents (libc : Libc) (f : LogFile) :
    ∃ fresh, (rollFile libc f).1.files.map AppendFile.content = f.files.map AppendFile.content ++ fresh ∧
      (fresh = [] ∨ fresh = [[]]) := by
  by_cases taken : f.lastRoll ≤ libc.time f.calls
  · exact ⟨[[]], by simp [rollFile, taken, files], Or.inr rfl⟩
  · exact ⟨[], by simp [rollFile, taken, files], Or.inl rfl⟩

theorem afterWrite_contents (libc : Libc) (f : LogFile) (writtenBytes : Int) :
    ∃ fresh, (afterWrite libc f writtenBytes).files.map AppendFile.content = f.files.map AppendFile.content ++ fresh ∧
      (fresh = [] ∨ fresh = [[]]) := by
  unfold afterWrite
  split
  · exact rollFile_contents libc f
  · split
    · dsimp only
      split
      · exact rollFile_contents libc _
      · split
        · refine ⟨[], ?_, Or.inl rfl⟩
          simp only [files, List.map_append, ← Option.toList_map, Option.map_map, List.append_nil]
          congr 3
          funext file
          exact flush_content file
        · exact ⟨[], (List.append_nil _).symm, Or.inl rfl⟩
    · exact ⟨[], (List.append_nil _).symm, Or.inl rfl⟩

/-- A chunk is written to the file that is open, and to no other. -/
theorem append_contents (libc : Libc) (logline : List UInt8) (opened : f.file = some file) :
    ∃ part fresh, part <+: logline ∧ (fresh = [] ∨ fresh = [[]]) ∧
      (f.append libc logline).files.map AppendFile.content =
        f.closed.map AppendFile.content ++ (file.content ++ part) :: fresh := by
  obtain ⟨part, taken, content⟩ := append_content file (libc.fwrite f.calls) logline
  simp only [append, opened]
  obtain ⟨fresh, contents, few⟩ := afterWrite_contents libc
    { f with file := some (file.append (libc.fwrite f.calls) logline), calls := f.calls + 1 }
    (file.append (libc.fwrite f.calls) logline).writtenBytes
  refine ⟨part, fresh, taken, few, contents.trans ?_⟩
  simp [files, content]

theorem madeOf_nil (none_landed : ∀ p ∈ landed, p.1 ≠ k) : MadeOf landed k [] := by
  refine ⟨[], rfl, ?_⟩
  rw [List.filter_eq_nil_iff.mpr fun p member here => none_landed p member (of_decide_eq_true here)]
  exact .nil

theorem MadeOf.land (made : MadeOf landed k content) (taken : part <+: e.logline) :
    MadeOf (landed ++ [(k, e)]) k (content ++ part) := by
  obtain ⟨parts, rfl, pieces⟩ := made
  refine ⟨parts ++ [part], by simp, ?_⟩
  rw [List.filter_append, List.filter_singleton]
  simpa using List.rel_append pieces (List.Forall₂.cons taken .nil)

theorem MadeOf.land_elsewhere {j : Nat} (made : MadeOf landed k content) (other : j ≠ k) :
    MadeOf (landed ++ [(j, e)]) k content := by
  obtain ⟨parts, eq, pieces⟩ := made
  refine ⟨parts, eq, ?_⟩
  rw [List.filter_append, List.filter_singleton]
  simpa [other] using pieces

theorem Accounts.append (libc : Libc) (accounts : Accounts s) (e : Entry) : Accounts (s.append libc e) := by
  cases opened : s.log.file with
  | none => rwa [Logged.append_none libc opened]
  | some file =>
    obtain ⟨part, fresh, taken, few, contents⟩ := append_contents (libc.showing e.now) e.logline opened
    have before : s.log.files.map AppendFile.content = s.log.closed.map AppendFile.content ++ [file.content] := by
      simp [files, opened]
    have length := congrArg List.length before
    have longer := congrArg List.length contents
    simp only [List.length_append, List.length_map, List.length_cons, List.length_nil] at length longer
    have numbers : ∀ p ∈ s.landed ++ [(s.log.closed.length, e)], p.1 ≤ s.log.closed.length := by
      intro p member
      rcases List.mem_append.mp member with old | last
      · have number := accounts.numbers p old
        omega
      · rw [List.mem_singleton.mp last]
    constructor
    all_goals rw [Logged.append_landed libc opened, Logged.append_log]
    · intro p member
      have number := numbers p member
      omega
    · rw [contents]
      intro k content found
      rcases lt_trichotomy k s.log.closed.length with earlier | rfl | later
      · rw [List.getElem?_append_left (by simpa using earlier)] at found
        refine (accounts.contents k content ?_).land_elsewhere (by omega)
        rw [before, List.getElem?_append_left (by simpa using earlier)]
        exact found
      · have here : file.content ++ part = content := by simpa using found
        rw [← here]
        exact (accounts.contents _ file.content (by simp [before])).land taken
      · rw [List.append_cons, List.getElem?_append_right (by simp; omega)] at found
        have empty : content = [] := by
          have member := List.mem_of_getElem? found
          rcases few with rfl | rfl
          · cases member
          · exact List.mem_singleton.mp member
        rw [empty]
        refine madeOf_nil fun p member => ?_
        have number := numbers p member
        omega

theorem Accounts.start (libc : Libc) (rollSize flushInterval checkEveryN opening : Int) :
    Accounts (Logged.start libc rollSize flushInterval checkEveryN opening) := by
  refine ⟨nofun, fun k content found => ?_⟩
  obtain ⟨fresh, contents, few⟩ := rollFile_contents (libc.showing opening)
    { rollSize := rollSize, flushInterval := flushInterval, checkEveryN := checkEveryN }
  have empty : content = [] := by
    have member := List.mem_of_getElem? found
    rw [Logged.start, make, contents] at member
    rcases few with rfl | rfl
    · cases member
    · exact List.mem_singleton.mp member
  rw [empty]
  exact madeOf_nil nofun

theorem Accounts.after (libc : Libc) (rollSize flushInterval checkEveryN opening : Int) (entries : List Entry) :
    Accounts ((Logged.start libc rollSize flushInterval checkEveryN opening).after libc entries) := by
  induction entries using List.reverseRecOn with
  | nil => exact Accounts.start libc rollSize flushInterval checkEveryN opening
  | append_singleton entries e ih =>
    have step := ih.append libc e
    simpa only [Logged.after, List.foldl_append, List.foldl_cons, List.foldl_nil] using step

end LogFile

end CoroNet
