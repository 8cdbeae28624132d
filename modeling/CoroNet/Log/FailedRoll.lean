import CoroNet.Log.Naming

namespace CoroNet.LogFile

/-- A chunk appended now gets to `fwrite`. -/
def Open (f : LogFile) : Prop := ∃ file, f.file = some file ∧ file.fp = true

/-- A roll installs a file that is open, or keeps the one there is and reports failure. -/
def RollSound (libc : Libc) (f : LogFile) : Prop :=
  (rollFile libc f).1.Open ∨ (rollFile libc f).1.file = f.file ∧ (rollFile libc f).2 = false

/-- No chunk is discarded and no roll spoils the log. -/
structure Kept (libc : Libc) (f : LogFile) (calls : List Call) : Prop where
  chunks : ∀ before logline after, calls = before ++ .append logline :: after → (LogFile.after libc f before).Open
  rolls : ∀ g ∈ LogFile.rolls libc f calls, g.RollSound libc

/-- The roll does not get a file from `fopen`, though the clock is not behind the last one. -/
def OpenFails (libc : Libc) (f : LogFile) : Prop := f.lastRoll ≤ libc.time f.calls ∧ libc.fopen (f.calls + 1) = false

variable {libc : Libc} {f g : LogFile} {calls : List Call}

theorem Alike.open_iff (alike : Alike f g) : g.Open ↔ f.Open := by
  have file := congrArg (Option.map Prod.snd) alike.file
  rw [Option.map_map, Option.map_map] at file
  have same : ∀ h : LogFile, h.Open ↔ h.file.map (Prod.snd ∘ fun file => (file.name, file.fp)) = some true := by
    intro h
    simp [Open, Option.map_eq_some_iff]
  rw [same, same, file]

/-- A roll that is not refused leaves what `fopen` has given. -/
theorem rollFile_taken (taken : f.lastRoll ≤ libc.time f.calls) :
    (rollFile libc f).2 = true ∧ ((rollFile libc f).1.Open ↔ libc.fopen (f.calls + 1) = true) := by
  simp [rollFile, taken, Open]

theorem rollFile_refused (behind : ¬ f.lastRoll ≤ libc.time f.calls) :
    (rollFile libc f).2 = false ∧ (rollFile libc f).1.file = f.file := by
  simp [rollFile, behind]

theorem rollSound_iff : f.RollSound libc ↔ ¬ f.OpenFails libc := by
  unfold RollSound OpenFails
  by_cases taken : f.lastRoll ≤ libc.time f.calls
  · obtain ⟨reported, opened⟩ := rollFile_taken taken
    rw [opened, reported]
    simp [taken]
  · obtain ⟨reported, same⟩ := rollFile_refused taken
    simp [taken, reported, same]

theorem open_roll (opened : f.Open) (sound : f.RollSound libc) : (rollFile libc f).1.Open := by
  rcases sound with installed | ⟨same, -⟩
  · exact installed
  · obtain ⟨file, held, fp⟩ := opened
    exact ⟨file, same.trans held, fp⟩

/-- The file stays open as long as the rolls are sound. -/
theorem after_open (opened : f.Open) (sound : ∀ g ∈ rolls libc f calls, g.RollSound libc) :
    (f.after libc calls).Open := by
  induction calls generalizing f with
  | nil => exact opened
  | cons call rest ih =>
    refine ih (f := f.exec libc call) ?_ fun g member => sound g (List.mem_append_right _ member)
    rcases exec_rolled libc f call with ⟨g, at_roll, done, alike⟩ | ⟨-, alike⟩
    · rw [done]
      have member : g ∈ rolls libc f (call :: rest) := by
        rw [rolls, at_roll]
        exact List.mem_append_left _ (List.mem_singleton.mpr rfl)
      exact open_roll (alike.open_iff.mpr opened) (sound g member)
    · exact alike.open_iff.mpr opened

/-- From an open file on: the log is kept if and only if each `fopen` of a roll succeeds. -/
theorem rotation_keeps_log_iff (libc : Libc) (rollSize flushInterval checkEveryN : Int) (calls : List Call)
    (opened : (make libc rollSize flushInterval checkEveryN).Open) :
    Kept libc (make libc rollSize flushInterval checkEveryN) calls ↔
      ∀ g ∈ rolls libc (make libc rollSize flushInterval checkEveryN) calls, ¬ g.OpenFails libc := by
  constructor
  · intro kept g member
    exact rollSound_iff.mp (kept.rolls g member)
  · intro fine
    have sound : ∀ g ∈ rolls libc (make libc rollSize flushInterval checkEveryN) calls, g.RollSound libc :=
      fun g member => rollSound_iff.mpr (fine g member)
    refine ⟨fun before logline after split => after_open opened fun g member => sound g ?_, sound⟩
    rw [split, rolls_append]
    exact List.mem_append_left _ member

/-- Every file but the first fails to open. -/
def noDescriptors : Libc where
  time n := 5 + n
  fopen n := n == 1
  fwrite _ len := len

theorem opened_rolls_keep_log : Kept setBack (make setBack 2 3 1024) [.append [1, 2, 3], .append [4]] := by
  have opened : (make setBack 2 3 1024).Open := ⟨_, rfl, rfl⟩
  refine (rotation_keeps_log_iff setBack 2 3 1024 [.append [1, 2, 3], .append [4]] opened).mpr fun g _ fails => ?_
  have succeeds : setBack.fopen (g.calls + 1) = true := rfl
  exact Bool.noConfusion (succeeds.symm.trans fails.2)

/-- The first chunk is larger than the limit, so the log is rolled, and the
second chunk is discarded. -/
theorem failed_roll_silences_log :
    (make noDescriptors 2 3 1024).Open ∧
      (after noDescriptors (make noDescriptors 2 3 1024) [.append [1, 2, 3], .append [4]]).files.map
        AppendFile.content = [[1, 2, 3], []] ∧
      ¬ Kept noDescriptors (make noDescriptors 2 3 1024) [.append [1, 2, 3], .append [4]] := by
  refine ⟨⟨_, rfl, rfl⟩, rfl, fun kept => ?_⟩
  obtain ⟨file, held, fp⟩ := kept.chunks [.append [1, 2, 3]] [4] [] rfl
  have closed : (after noDescriptors (make noDescriptors 2 3 1024) [.append [1, 2, 3]]).file.map AppendFile.fp =
      some false := rfl
  rw [held, Option.map_some, fp] at closed
  cases closed

end CoroNet.LogFile
