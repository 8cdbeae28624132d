import CoroNet.Log.LogFile
import Mathlib.Data.List.Induction

namespace CoroNet.LogFile

/-- The clock does not go back, and every file opens and takes what is written. -/
structure Succeeds (libc : Libc) : Prop where
  forward : ∀ m n, m ≤ n → libc.time m ≤ libc.time n
  epoch : 0 ≤ libc.time 0
  opens : ∀ n, libc.fopen n = true
  takes : ∀ n len, libc.fwrite n len = len

/-- The bytes before the last chunk of a file are at most `limit`. -/
def Bounded (limit : Int) (group : List (List UInt8)) : Prop :=
  ∀ front last, group = front ++ [last] → (front.flatten.length : Int) ≤ limit

/-- The files hold the chunks, each chunk in one file, in the order of the
chunks and of the files. -/
structure Preserves (limit : Int) (files : List AppendFile) (chunks : List (List UInt8)) : Prop where
  stream : files.flatMap AppendFile.content = chunks.flatten
  groups : ∃ groups : List (List (List UInt8)), groups.flatten = chunks ∧
    files.map AppendFile.content = groups.map List.flatten ∧ ∀ g ∈ groups, Bounded limit g

/-- An open file that took these chunks and nothing else. -/
structure Took (file : AppendFile) (chunks : List (List UInt8)) : Prop where
  fp : file.fp = true
  content : file.content = chunks.flatten
  counted : file.writtenBytes = chunks.flatten.length

variable {libc : Libc} {f : LogFile} {file : AppendFile} {limit : Int} {logline : List UInt8}
  {closed : List (List (List UInt8))} {current chunks : List (List UInt8)}

theorem Took.append {fwrite : Nat → Nat} (took : Took file current) (takes : ∀ len, fwrite len = len) :
    Took (file.append fwrite logline) (current ++ [logline]) := by
  obtain ⟨fp, content, counted⟩ := took
  by_cases empty : logline = []
  · have same : file.append fwrite logline = file := if_pos (Or.inr empty)
    rw [same]
    exact ⟨fp, by simp [content, empty], by simp [counted, empty]⟩
  · have written : file.append fwrite logline = { file with
        content := file.content ++ logline, writtenBytes := file.writtenBytes + logline.length } := by
      simp [AppendFile.append, fp, empty, takes]
    rw [written]
    exact ⟨fp, by simp [content], by simp [counted]⟩

theorem Took.flush (took : Took file current) : Took file.flush current := by
  unfold AppendFile.flush
  split
  · exact ⟨took.fp, took.content, took.counted⟩
  · exact took

/-- What holds between the write of a chunk and the roll it may lead to:
`closed` and `current` are the chunks of the closed files and of the open one. -/
structure Tracks (libc : Libc) (limit : Int) (f : LogFile) (closed : List (List (List UInt8)))
    (current : List (List UInt8)) : Prop where
  opened : ∃ file, f.file = some file ∧ Took file current
  earlier : f.closed.map AppendFile.content = closed.map List.flatten
  bounded : ∀ g ∈ closed, Bounded limit g
  fits : Bounded limit current
  past : ∀ n, f.calls ≤ n → f.lastRoll ≤ libc.time n

theorem bounded_nil : Bounded limit [] := by
  intro front last eq
  simp at eq

theorem bounded_append (small : (current.flatten.length : Int) ≤ limit) : Bounded limit (current ++ [logline]) := by
  intro front last eq
  rw [(List.append_inj_left' eq rfl).symm]
  exact small

theorem bounded_of_small (small : (current.flatten.length : Int) ≤ limit) : Bounded limit current := by
  intro front last eq
  rw [eq, List.flatten_append, List.length_append] at small
  omega

/-- A roll closes the file and opens an empty one; the clock is never behind
the last roll, so it is not refused. -/
theorem Tracks.rollFile (sound : Succeeds libc) (held : Tracks libc limit f closed current) :
    Tracks libc limit (rollFile libc f).1 (closed ++ [current]) [] := by
  obtain ⟨file, opened, took⟩ := held.opened
  have now := held.past f.calls le_rfl
  simp only [LogFile.rollFile, now, if_true]
  constructor
  · exact ⟨_, rfl, sound.opens _, rfl, rfl⟩
  · simp only [files, opened, Option.toList_some, List.map_append, held.earlier, List.map_cons, took.content,
      List.map_nil]
  · intro g member
    rcases List.mem_append.mp member with before | last
    · exact held.bounded g before
    · rw [List.mem_singleton.mp last]
      exact held.fits
  · exact bounded_nil
  · intro n later
    exact sound.forward _ _ (by simp only at later; omega)

/-- What holds between two calls. -/
def Holds (libc : Libc) (f : LogFile) (chunks : List (List UInt8)) : Prop :=
  ∃ closed current, Tracks libc (max f.rollSize 0) f closed current ∧
    (current.flatten.length : Int) ≤ max f.rollSize 0 ∧ (closed ++ [current]).flatten = chunks

theorem rollFile_rollSize : (rollFile libc f).1.rollSize = f.rollSize := by
  simp only [rollFile]
  split <;> rfl

theorem Tracks.rolled (sound : Succeeds libc) (held : Tracks libc limit f closed current)
    (limits : limit = max f.rollSize 0) :
    Holds libc (LogFile.rollFile libc f).1 (closed ++ [current]).flatten := by
  subst limits
  refine ⟨closed ++ [current], [], ?_, ?_, ?_⟩
  · rw [rollFile_rollSize]
    exact held.rollFile sound
  · simp
  · simp

theorem Tracks.afterWrite (sound : Succeeds libc) (held : Tracks libc limit f closed current)
    (limits : limit = max f.rollSize 0) :
    Holds libc (afterWrite libc f current.flatten.length) (closed ++ [current]).flatten := by
  subst limits
  unfold LogFile.afterWrite
  split
  next => exact held.rolled sound rfl
  next notLarge =>
    have small : (current.flatten.length : Int) ≤ max f.rollSize 0 := by omega
    have later : ∀ n, f.calls + 1 ≤ n → f.lastRoll ≤ libc.time n := fun n after => held.past n (by omega)
    split
    next =>
      dsimp only
      split
      next =>
        have checked : Tracks libc (max f.rollSize 0) { f with count := 0, calls := f.calls + 1 } closed current :=
          ⟨held.opened, held.earlier, held.bounded, held.fits, later⟩
        exact Tracks.rolled sound checked rfl
      next =>
        obtain ⟨file, opened, took⟩ := held.opened
        split
        next =>
          refine ⟨closed, current, ⟨?_, held.earlier, held.bounded, held.fits, later⟩, small, rfl⟩
          exact ⟨file.flush, by simp [opened], took.flush⟩
        next => exact ⟨closed, current, ⟨held.opened, held.earlier, held.bounded, held.fits, later⟩, small, rfl⟩
    next => exact ⟨closed, current, ⟨held.opened, held.earlier, held.bounded, held.fits, held.past⟩, small, rfl⟩

theorem Holds.append (sound : Succeeds libc) (held : Holds libc f chunks) :
    Holds libc (f.append libc logline) (chunks ++ [logline]) := by
  obtain ⟨closed, current, tracks, small, eq⟩ := held
  obtain ⟨file, opened, took⟩ := tracks.opened
  have took : Took (file.append (libc.fwrite f.calls) logline) (current ++ [logline]) := took.append (sound.takes f.calls)
  have written : Tracks libc (max f.rollSize 0)
      { f with file := some (file.append (libc.fwrite f.calls) logline), calls := f.calls + 1 }
      closed (current ++ [logline]) :=
    ⟨⟨_, rfl, took⟩, tracks.earlier, tracks.bounded, bounded_append small, fun n later =>
      tracks.past n (Nat.le_of_succ_le later)⟩
  have next := Tracks.afterWrite sound written rfl
  simp only [LogFile.append, opened, took.counted]
  rw [← eq]
  simpa using next

theorem Holds.flush (held : Holds libc f chunks) : Holds libc f.flush chunks := by
  obtain ⟨closed, current, tracks, small, eq⟩ := held
  obtain ⟨file, opened, took⟩ := tracks.opened
  refine ⟨closed, current, ⟨?_, tracks.earlier, tracks.bounded, tracks.fits, tracks.past⟩, small, eq⟩
  exact ⟨file.flush, by simp [LogFile.flush, opened], took.flush⟩

theorem Holds.rollFile (sound : Succeeds libc) (held : Holds libc f chunks) :
    Holds libc (LogFile.rollFile libc f).1 chunks := by
  obtain ⟨closed, current, tracks, _, rfl⟩ := held
  exact tracks.rolled sound rfl

theorem Holds.exec {call : Call} (sound : Succeeds libc) (held : Holds libc f chunks) :
    Holds libc (f.exec libc call) (chunks ++ call.chunk.toList) := by
  cases call with
  | append logline => exact held.append sound
  | flush => simpa only [Call.chunk, Option.toList_none, List.append_nil, LogFile.exec] using held.flush
  | rollFile => simpa only [Call.chunk, Option.toList_none, List.append_nil, LogFile.exec] using held.rollFile sound

/-- The first roll is not refused either: the clock has passed 0. -/
theorem make_holds (sound : Succeeds libc) (rollSize flushInterval checkEveryN : Int) :
    Holds libc (make libc rollSize flushInterval checkEveryN) [] := by
  refine ⟨[], [], ?_, by simp, rfl⟩
  have now : (0 : Int) ≤ libc.time 0 := sound.epoch
  simp only [make, LogFile.rollFile, now, if_true]
  constructor
  · exact ⟨_, rfl, sound.opens _, rfl, rfl⟩
  · rfl
  · simp
  · exact bounded_nil
  · intro n _
    exact sound.forward _ _ (Nat.zero_le n)

theorem after_holds (sound : Succeeds libc) (held : Holds libc f []) (calls : List Call) :
    Holds libc (f.after libc calls) (LogFile.chunks calls) := by
  induction calls using List.reverseRecOn with
  | nil => exact held
  | append_singleton calls call ih =>
    have next : Holds libc _ (LogFile.chunks calls ++ call.chunk.toList) := ih.exec sound
    have last : LogFile.chunks (calls ++ [call]) = LogFile.chunks calls ++ call.chunk.toList := by
      rw [LogFile.chunks, List.filterMap_append]
      cases h : call.chunk <;> simp [LogFile.chunks, h]
    rw [last]
    simpa only [after, List.foldl_append, List.foldl_cons, List.foldl_nil] using next

theorem append_rollSize : (f.append libc logline).rollSize = f.rollSize := by
  unfold LogFile.append afterWrite
  split
  · rfl
  · dsimp only
    split_ifs <;> simp only [rollFile_rollSize]

theorem exec_rollSize (call : Call) : (f.exec libc call).rollSize = f.rollSize := by
  cases call with
  | append logline => exact append_rollSize
  | flush => rfl
  | rollFile => exact rollFile_rollSize

theorem after_rollSize (calls : List Call) : (f.after libc calls).rollSize = f.rollSize := by
  induction calls generalizing f with
  | nil => rfl
  | cons call rest ih => exact ih.trans (exec_rollSize call)

theorem Holds.preserves (held : Holds libc f chunks) : Preserves (max f.rollSize 0) f.files chunks := by
  obtain ⟨closed, current, tracks, small, rfl⟩ := held
  obtain ⟨file, opened, took⟩ := tracks.opened
  have contents : f.files.map AppendFile.content = (closed ++ [current]).map List.flatten := by
    simp only [files, opened, Option.toList_some, List.map_append, tracks.earlier, List.map_cons, took.content,
      List.map_nil]
  refine ⟨?_, closed ++ [current], rfl, contents, ?_⟩
  · rw [List.flatMap_def, contents, List.flatten_flatten]
  · intro g member
    rcases List.mem_append.mp member with before | last
    · exact tracks.bounded g before
    · rw [List.mem_singleton.mp last]
      exact bounded_of_small small

/-- Flushes and rolls by hand, in any places, change nothing in this. A
negative `roll_size_` counts as 0: each chunk then has a file of its own. -/
theorem rotation_preserves_stream (sound : Succeeds libc) (rollSize flushInterval checkEveryN : Int)
    (calls : List Call) :
    Preserves (max rollSize 0) (after libc (make libc rollSize flushInterval checkEveryN) calls).files
      (LogFile.chunks calls) := by
  have held := after_holds sound (make_holds sound rollSize flushInterval checkEveryN) calls
  have size : (after libc (make libc rollSize flushInterval checkEveryN) calls).rollSize = rollSize :=
    (after_rollSize calls).trans rollFile_rollSize
  simpa only [size] using held.preserves

/-- A clock that moves on by a minute with each call, and files that take everything. -/
def steady : Libc where
  time n := 60 * n
  fopen _ := true
  fwrite _ len := len

theorem steady_succeeds : Succeeds steady where
  forward m n le := by simp only [steady]; omega
  epoch := by simp [steady]
  opens _ := rfl
  takes _ _ := rfl

theorem rotation_preserves_three_chunks :
    Preserves 4 (after steady (make steady 4 3 2) [.append [1, 2, 3], .append [4, 5], .append [6]]).files
      [[1, 2, 3], [4, 5], [6]] :=
  rotation_preserves_stream steady_succeeds 4 3 2 [.append [1, 2, 3], .append [4, 5], .append [6]]

/-- With `roll_size_` -1 a file with one byte has no bytes before its chunk,
which are more than -1. -/
theorem negative_rollSize_exceeded :
    Succeeds steady ∧ ¬ Preserves (-1) (after steady (make steady (-1) 3 1) [.append [65]]).files [[65]] := by
  refine ⟨steady_succeeds, fun kept => ?_⟩
  obtain ⟨groups, eq, _, bounded⟩ := kept.groups
  have member : [65] ∈ groups.flatten := by simp [eq]
  obtain ⟨g, inGroups, inside⟩ := List.mem_flatten.mp member
  have ne := List.ne_nil_of_mem inside
  have small := bounded g inGroups g.dropLast (g.getLast ne) (List.dropLast_append_getLast ne).symm
  omega

end CoroNet.LogFile
