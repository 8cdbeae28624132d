import CoroNet.Log.Landing
import CoroNet.Log.Naming
import CoroNet.Log.Rotation
import Mathlib.Algebra.Order.Group.Unbundled.Int
import Mathlib.Data.List.Count

namespace CoroNet.LogFile

/-- The period of 86400 seconds that a reading of the clock is in. -/
def period (now : Int) : Int := now / kRollPerSeconds

/-- How many chunks landed in the `k`-th file, opened at `stamp`, when its
period was over. -/
def late (k : Nat) (stamp : Int) (landed : List (Nat × Entry)) : Nat :=
  landed.countP fun p => p.1 = k ∧ period stamp < period p.2.now

/-- `g` still has the file of `f` under its name, and what decides on the rolls. -/
structure Continues (f g : LogFile) : Prop where
  file : g.file.map AppendFile.name = f.file.map AppendFile.name
  closed : g.closed = f.closed
  lastRoll : g.lastRoll = f.lastRoll
  startOfPeriod : g.startOfPeriod = f.startOfPeriod
  checkEveryN : g.checkEveryN = f.checkEveryN

/-- No file has too many late chunks; `n` is `check_every_n_`. -/
structure Within (n : Int) (f : LogFile) (landed : List (Nat × Entry)) : Prop where
  every : f.checkEveryN = n
  count : 0 ≤ f.count ∧ f.count < n
  numbers : ∀ p ∈ landed, p.1 ≤ f.closed.length
  files : ∀ k name, f.names[k]? = some name → (late k name.stamp landed : Int) ≤ n
  opened : ∀ name, f.file.map AppendFile.name = some name → name.stamp = f.lastRoll ∧ 0 ≤ f.lastRoll ∧
    f.startOfPeriod = f.lastRoll.tdiv kRollPerSeconds * kRollPerSeconds

/-- Since the last look at the clock no more chunks can have come late to the
open file than `count` says. -/
structure Timely (n : Int) (f : LogFile) (landed : List (Nat × Entry)) : Prop where
  within : Within n f landed
  recent : ∀ name, f.file.map AppendFile.name = some name →
    (late f.closed.length name.stamp landed : Int) ≤ f.count

variable {libc : Libc} {f : LogFile} {file : AppendFile} {name : Filename} {k : Nat} {stamp now n : Int}
  {landed : List (Nat × Entry)} {entries : List Entry} {e : Entry} {s : Logged}

theorem period_mono (le : now ≤ stamp) : period now ≤ period stamp :=
  Int.ediv_le_ediv (by decide) le

/-- From the epoch on the code's division tells the periods apart. -/
theorem period_of_start_eq (epoch : 0 ≤ stamp)
    (same : now.tdiv kRollPerSeconds * kRollPerSeconds = stamp.tdiv kRollPerSeconds * kRollPerSeconds) :
    period now ≤ period stamp := by
  rcases lt_or_ge now 0 with before | after
  · exact period_mono (by omega)
  · rw [Int.tdiv_eq_ediv_of_nonneg after, Int.tdiv_eq_ediv_of_nonneg epoch] at same
    exact (Int.eq_of_mul_eq_mul_right (by decide) same).le

theorem late_eq_zero (timely : ∀ p ∈ landed, p.1 = k → period p.2.now ≤ period stamp) : late k stamp landed = 0 := by
  refine List.countP_eq_zero.mpr fun p member is_late => ?_
  obtain ⟨here, later⟩ := of_decide_eq_true is_late
  exact absurd (timely p member here) (Int.not_le.mpr later)

theorem late_append (k : Nat) (stamp : Int) (landed more : List (Nat × Entry)) :
    late k stamp (landed ++ more) = late k stamp landed + late k stamp more :=
  List.countP_append

theorem late_single_le (k : Nat) (stamp : Int) (p : Nat × Entry) : late k stamp [p] ≤ 1 :=
  List.countP_le_length

theorem late_elsewhere {j : Nat} (other : j ≠ k) : late k stamp [(j, e)] = 0 := by
  refine late_eq_zero fun p member here => ?_
  cases List.mem_singleton.mp member
  exact absurd here other

/-- An append comes to a roll, or counts up, or finds the file in its period. -/
theorem append_cases (libc : Libc) (logline : List UInt8) (opened : f.file = some file) :
    (∃ g, f.append libc logline = (rollFile libc g).1 ∧ Continues f g ∧ (g.count = f.count ∨ g.count = 0)) ∨
    (Continues f (f.append libc logline) ∧
      ((f.append libc logline).count = f.count + 1 ∧ f.count + 1 < f.checkEveryN ∨
        (f.append libc logline).count = 0 ∧
          (libc.time (f.calls + 1)).tdiv kRollPerSeconds * kRollPerSeconds = f.startOfPeriod)) := by
  have name : (some (file.append (libc.fwrite f.calls) logline)).map AppendFile.name =
      f.file.map AppendFile.name := by
    rw [opened, Option.map_some, Option.map_some, (append_name file _ logline).1]
  simp only [append, opened, afterWrite]
  split
  next => exact Or.inl ⟨_, rfl, ⟨name, rfl, rfl, rfl, rfl⟩, Or.inl rfl⟩
  next =>
    split
    next =>
      split
      next => exact Or.inl ⟨_, rfl, ⟨name, rfl, rfl, rfl, rfl⟩, Or.inr rfl⟩
      next same =>
        have same := not_ne_iff.mp same
        split
        next =>
          refine Or.inr ⟨⟨?_, rfl, rfl, rfl, rfl⟩, Or.inr ⟨rfl, same⟩⟩
          rw [← name, Option.map_some, Option.map_some, Option.map_some, (flush_name _).1]
        next => exact Or.inr ⟨⟨name, rfl, rfl, rfl, rfl⟩, Or.inr ⟨rfl, same⟩⟩
    next few => exact Or.inr ⟨⟨name, rfl, rfl, rfl, rfl⟩, Or.inl ⟨rfl, by omega⟩⟩

theorem Continues.names {f g : LogFile} (continues : Continues f g) : g.names = f.names := by
  simp only [LogFile.names, files, List.map_append, ← Option.toList_map, continues.file, continues.closed]

theorem Within.continues {g : LogFile} (within : Within n f landed) (continues : Continues f g)
    (count : 0 ≤ g.count ∧ g.count < n) : Within n g landed := by
  refine ⟨continues.checkEveryN.trans within.every, count, ?_, ?_, ?_⟩
  · rw [continues.closed]
    exact within.numbers
  · rw [continues.names]
    exact within.files
  · rw [continues.file, continues.lastRoll, continues.startOfPeriod]
    exact within.opened

theorem makeFilename_stamp (f : LogFile) (now : Int) : (f.makeFilename now).1.stamp = now := by
  unfold makeFilename
  split <;> rfl

theorem rollFile_behind_continues (libc : Libc) (f : LogFile) (behind : ¬ f.lastRoll ≤ libc.time f.calls) :
    Continues f (rollFile libc f).1 ∧ (rollFile libc f).1.count = f.count := by
  simp only [rollFile, if_neg behind]
  exact ⟨⟨rfl, rfl, rfl, rfl, rfl⟩, trivial⟩

theorem rollFile_names (taken : f.lastRoll ≤ libc.time f.calls) :
    (rollFile libc f).1.names = f.names ++ [(f.makeFilename (libc.time f.calls)).1] := by
  simp [rollFile, taken, names, files]

/-- In a file that is just opened nothing is late. -/
theorem Within.rollFile (libc : Libc) (within : Within n f landed) (taken : f.lastRoll ≤ libc.time f.calls)
    (epoch : 0 ≤ f.lastRoll) (numbers : ∀ p ∈ landed, p.1 < f.files.length) :
    Within n (rollFile libc f).1 landed ∧ ∀ stamp, late (LogFile.rollFile libc f).1.closed.length stamp landed = 0 := by
  have fresh : ∀ stamp, late f.files.length stamp landed = 0 := fun stamp =>
    late_eq_zero fun p member here => absurd (numbers p member) (by omega)
  have files : ∀ k name, (LogFile.rollFile libc f).1.names[k]? = some name → (late k name.stamp landed : Int) ≤ n := by
    intro k name found
    have length : f.names.length = f.files.length := List.length_map _
    rw [rollFile_names taken] at found
    rcases Nat.lt_or_ge k f.names.length with before | after
    · rw [List.getElem?_append_left before] at found
      exact within.files k name found
    · obtain ⟨inside, -⟩ := List.getElem?_eq_some_iff.mp found
      rw [List.length_append, List.length_singleton] at inside
      have last : k = f.files.length := by omega
      have counted := within.count
      rw [last, fresh]
      omega
  have begun : (LogFile.rollFile libc f).1.closed = f.files ∧ (LogFile.rollFile libc f).1.count = f.count ∧
      (LogFile.rollFile libc f).1.checkEveryN = f.checkEveryN := by
    simp only [LogFile.rollFile, if_pos taken, and_self]
  obtain ⟨closed, count, every⟩ := begun
  rw [closed]
  refine ⟨⟨every.trans within.every, count ▸ within.count, ?_, files, ?_⟩, fresh⟩
  · rw [closed]
    exact fun p member => (numbers p member).le
  · intro name found
    simp only [LogFile.rollFile, if_pos taken] at found ⊢
    cases Option.some.inj found
    exact ⟨makeFilename_stamp f _, epoch.trans taken, trivial⟩

/-- Where no chunk came after a time within the period, none was late. -/
theorem late_none (past : ∀ p ∈ landed, p.2.now ≤ now) (inTime : period now ≤ period stamp) (k : Nat) :
    late k stamp landed = 0 :=
  late_eq_zero fun p member _ => (period_mono (past p member)).trans inTime

/-- A roll opens a new file; one that is refused comes before the second the
old one was opened in. -/
theorem Within.rollFile_timely (within : Within n f landed) (held : f.file.map AppendFile.name = some name)
    (past : ∀ p ∈ landed, p.2.now ≤ libc.time f.calls) : Timely n (LogFile.rollFile libc f).1 landed := by
  obtain ⟨stamp_eq, epoch, -⟩ := within.opened name held
  by_cases taken : f.lastRoll ≤ libc.time f.calls
  · obtain ⟨file, opened, -⟩ := Option.map_eq_some_iff.mp held
    have length : f.files.length = f.closed.length + 1 := by
      simp [LogFile.files, opened]
    obtain ⟨made, fresh⟩ := within.rollFile libc taken epoch fun p member => by
      have number := within.numbers p member
      omega
    refine ⟨made, fun name _ => ?_⟩
    rw [fresh]
    exact made.count.1
  · obtain ⟨kept, count⟩ := rollFile_behind_continues libc f taken
    have made := within.continues kept (count ▸ within.count)
    refine ⟨made, fun other found => ?_⟩
    rw [kept.file, held] at found
    cases found
    have before : libc.time f.calls ≤ name.stamp := by omega
    rw [late_none past (period_mono before)]
    exact made.count.1

theorem make_timely (positive : 1 ≤ n) (libc : Libc) (rollSize flushInterval : Int) :
    Timely n (make libc rollSize flushInterval n) [] := by
  have initial : Within n { rollSize := rollSize, flushInterval := flushInterval, checkEveryN := n } [] :=
    ⟨rfl, ⟨le_rfl, positive⟩, nofun, nofun, nofun⟩
  by_cases taken : 0 ≤ libc.time 0
  · obtain ⟨made, -⟩ := initial.rollFile libc taken le_rfl nofun
    exact ⟨made, fun name _ => made.count.1⟩
  · obtain ⟨continues, count⟩ := rollFile_behind_continues libc
      { rollSize := rollSize, flushInterval := flushInterval, checkEveryN := n } taken
    have made := initial.continues continues (count ▸ initial.count)
    exact ⟨made, fun name _ => made.count.1⟩

/-- One more chunk in the open file. -/
theorem Timely.land (timely : Timely n f landed) (opened : f.file = some file) (e : Entry) :
    Within n f (landed ++ [(f.closed.length, e)]) := by
  have within := timely.within
  refine ⟨within.every, within.count, ?_, ?_, within.opened⟩
  · intro p member
    rcases List.mem_append.mp member with before | last
    · exact within.numbers p before
    · rw [List.mem_singleton.mp last]
  · intro k name found
    rw [late_append]
    by_cases other : f.closed.length = k
    · have here : f.file.map AppendFile.name = some name := by
        rw [names, files, List.map_append, ← other, List.getElem?_append_right (by simp)] at found
        simpa [opened] using found
      have recent := timely.recent name here
      have counted := within.count
      have single := late_single_le k name.stamp (f.closed.length, e)
      rw [other] at recent
      omega
    · rw [late_elsewhere other]
      exact within.files k name found

/-- With a chunk that is written no file gets too many. -/
theorem Timely.append (libc : Libc) (timely : Timely n f landed) (opened : f.file = some file)
    (past : ∀ p ∈ landed, p.2.now ≤ e.now) :
    Timely n (f.append (libc.showing e.now) e.logline) (landed ++ [(f.closed.length, e)]) := by
  have within := timely.within
  have counted := within.count
  have landing := timely.land opened e
  have held : f.file.map AppendFile.name = some file.name := by rw [opened, Option.map_some]
  have past_e : ∀ p ∈ landed ++ [(f.closed.length, e)], p.2.now ≤ e.now := by
    intro p member
    rcases List.mem_append.mp member with before | last
    · exact past p before
    · rw [List.mem_singleton.mp last]
  rcases append_cases (libc.showing e.now) e.logline opened with ⟨g, rolled, continues, count⟩ | ⟨continues, counts⟩
  · have written := landing.continues continues (by omega)
    rw [rolled]
    exact written.rollFile_timely (continues.file.trans held) past_e
  · rw [within.every] at counts
    have kept := landing.continues continues (by omega)
    refine ⟨kept, fun name found => ?_⟩
    rw [continues.file, held] at found
    cases found
    obtain ⟨stamp_eq, epoch, begun⟩ := within.opened file.name held
    rcases counts with ⟨count, few⟩ | ⟨count, same⟩
    · have recent := timely.recent file.name held
      have single := late_single_le f.closed.length file.name.stamp (f.closed.length, e)
      rw [continues.closed, count, late_append]
      omega
    · have inTime : period e.now ≤ period file.name.stamp := by
        rw [stamp_eq]
        exact period_of_start_eq epoch (same.trans begun)
      rw [late_none past_e inTime]
      exact kept.count.1

theorem Timely.append_entry (libc : Libc) (timely : Timely n s.log s.landed) (past : ∀ p ∈ s.landed, p.2.now ≤ e.now) :
    Timely n (s.append libc e).log (s.append libc e).landed := by
  cases opened : s.log.file with
  | none => rwa [Logged.append_none libc opened]
  | some file =>
    rw [Logged.append_landed libc opened, Logged.append_log]
    exact timely.append libc opened past

theorem after_timely (positive : 1 ≤ n) (libc : Libc) (rollSize flushInterval opening : Int)
    (forward : entries.Pairwise fun a b => a.now ≤ b.now) :
    Timely n ((Logged.start libc rollSize flushInterval n opening).after libc entries).log
      ((Logged.start libc rollSize flushInterval n opening).after libc entries).landed := by
  induction entries using List.reverseRecOn with
  | nil => exact make_timely positive (libc.showing opening) rollSize flushInterval
  | append_singleton entries e ih =>
    obtain ⟨earlier, -, last⟩ := List.pairwise_append.mp forward
    have past : ∀ p ∈ ((Logged.start libc rollSize flushInterval n opening).after libc entries).landed,
        p.2.now ≤ e.now := by
      intro p member
      rcases landed_subset libc _ entries p member with old | appended
      · cases old
      · exact last p.2 appended e (List.mem_singleton.mpr rfl)
    have step := (ih earlier).append_entry libc past
    simpa only [Logged.after, List.foldl_append, List.foldl_cons, List.foldl_nil] using step

/-- A file is made of the chunks that landed in it, and at most `check_every_n_`
of them came when the period in which it was opened was over; its stamp is the
second it was opened in. -/
theorem late_chunks_bounded (libc : Libc) (rollSize flushInterval opening : Int) {checkEveryN : Int}
    (positive : 1 ≤ checkEveryN) {entries : List Entry} (forward : (entries.map Entry.now).Pairwise (· ≤ ·))
    (found : ((Logged.start libc rollSize flushInterval checkEveryN opening).after libc entries).log.files[k]? =
      some file) :
    MadeOf ((Logged.start libc rollSize flushInterval checkEveryN opening).after libc entries).landed k file.content ∧
      (late k file.name.stamp
        ((Logged.start libc rollSize flushInterval checkEveryN opening).after libc entries).landed : Int) ≤
          checkEveryN := by
  have timely := after_timely positive libc rollSize flushInterval opening (List.pairwise_map.mp forward)
  have accounts := Accounts.after libc rollSize flushInterval checkEveryN opening entries
  constructor
  · refine accounts.contents k file.content ?_
    rw [List.getElem?_map, found, Option.map_some]
  · refine timely.within.files k file.name ?_
    rw [names, List.getElem?_map, found, Option.map_some]

/-- The clock is read at every second append, so that two chunks of the new
day still land in the file of the day before. -/
def overnight : List Entry := [⟨86400, [1]⟩, ⟨86401, [2]⟩, ⟨86402, [3]⟩]

theorem two_late_chunks :
    late 0 86399 ((Logged.start steady 100 3 2 86399).after steady overnight).landed = 2 ∧
      (late 0 86399 ((Logged.start steady 100 3 2 86399).after steady overnight).landed : Int) ≤ 2 ∧
      MadeOf ((Logged.start steady 100 3 2 86399).after steady overnight).landed 0 [1, 2] := by
  have found : ((Logged.start steady 100 3 2 86399).after steady overnight).log.files[0]? =
      some { name := ⟨86399, none⟩, fp := true, content := [1, 2], writtenBytes := 2 } := rfl
  have bounded := late_chunks_bounded steady 100 3 86399 (by decide) (by decide) found
  exact ⟨by decide +kernel, bounded.2, bounded.1⟩

end CoroNet.LogFile
