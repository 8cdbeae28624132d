import CoroNet.Log.LogFile
import Mathlib.Data.List.Count
import Mathlib.Data.List.Induction
import Mathlib.Data.List.Nodup

namespace CoroNet.LogFile

/-- The state in which a call gets to `roll_file`, if it does. -/
def rolled (libc : Libc) (f : LogFile) : Call → Option LogFile
  | .append logline =>
    match f.file with
    | none => none
    | some file =>
      let file := file.append (libc.fwrite f.calls) logline
      let f := { f with file := some file, calls := f.calls + 1 }
      if f.rollSize < file.writtenBytes then some f
      else if f.checkEveryN ≤ f.count + 1 then
        if (libc.time f.calls).tdiv kRollPerSeconds * kRollPerSeconds ≠ f.startOfPeriod then
          some { f with count := 0, calls := f.calls + 1 }
        else none
      else none
  | .flush => none
  | .rollFile => some f

/-- The states in which a sequence of calls gets to `roll_file`. -/
def rolls (libc : Libc) (f : LogFile) : List Call → List LogFile
  | [] => []
  | call :: rest => (rolled libc f call).toList ++ rolls libc (f.exec libc call) rest

/-- What the clock shows to `roll_file`, first in the constructor. -/
def readings (libc : Libc) (rollSize flushInterval checkEveryN : Int) (calls : List Call) : List Int :=
  libc.time 0 :: (rolls libc (make libc rollSize flushInterval checkEveryN) calls).map fun f => libc.time f.calls

/-- The names given to `fopen`, in order. -/
def names (f : LogFile) : List Filename := f.files.map AppendFile.name

/-- The names of the files that were opened. -/
def openedNames (f : LogFile) : List Filename := (f.files.filter AppendFile.fp).map AppendFile.name

/-- The clock has shown a second twice and an earlier one after that. -/
def SteppedBack (readings : List Int) (second : Int) : Prop :=
  ∃ before earlier after, readings = before ++ earlier :: after ∧ 2 ≤ before.count second ∧ earlier < second

/-- The clock comes back to the latest second after it has stepped back from it. -/
def Revisits (readings : List Int) : Prop :=
  ∃ before second after, readings = before ++ second :: after ∧ SteppedBack before second ∧ ∀ r ∈ before, r ≤ second

/-- No second is shown so often that the count of its files overflows. -/
def Counted (readings : List Int) : Prop := ∀ second, readings.count second ≤ 2 ^ 31

/-- The parts that decide the next name are the same. -/
structure Alike (f g : LogFile) : Prop where
  lastRoll : g.lastRoll = f.lastRoll
  sameSecondSeq : g.sameSecondSeq = f.sameSecondSeq
  closed : g.closed = f.closed
  file : (g.file.map fun file => (file.name, file.fp)) = f.file.map fun file => (file.name, file.fp)

variable {libc : Libc} {f g : LogFile} {call : Call} {calls : List Call} {past : List Int} {now second : Int}

theorem Alike.refl (f : LogFile) : Alike f f := ⟨rfl, rfl, rfl, rfl⟩

theorem Alike.files (alike : Alike f g) :
    (g.files.map fun file => (file.name, file.fp)) = f.files.map fun file => (file.name, file.fp) := by
  simp only [LogFile.files, alike.closed, List.map_append, ← Option.toList_map, alike.file]

theorem Alike.names (alike : Alike f g) : g.names = f.names := by
  have names := congrArg (List.map Prod.fst) alike.files
  rw [List.map_map, List.map_map] at names
  exact names

theorem Alike.opened (alike : Alike f g) (opened : ∀ file ∈ f.files, file.fp = true) :
    ∀ file ∈ g.files, file.fp = true := by
  intro file member
  have marked : (file.name, file.fp) ∈ g.files.map fun file => (file.name, file.fp) := List.mem_map_of_mem member
  rw [alike.files] at marked
  obtain ⟨other, other_mem, same⟩ := List.mem_map.mp marked
  rw [← (Prod.mk.inj same).2]
  exact opened other other_mem

theorem append_name (file : AppendFile) (fwrite : Nat → Nat) (logline : List UInt8) :
    (file.append fwrite logline).name = file.name ∧ (file.append fwrite logline).fp = file.fp := by
  unfold AppendFile.append
  split <;> exact ⟨rfl, rfl⟩

theorem flush_name (file : AppendFile) : file.flush.name = file.name ∧ file.flush.fp = file.fp := by
  unfold AppendFile.flush
  split <;> exact ⟨rfl, rfl⟩

theorem flush_alike (f : LogFile) : Alike f f.flush := by
  refine ⟨rfl, rfl, rfl, ?_⟩
  cases file : f.file with
  | none => simp [flush, file]
  | some file => simp [flush, file, (flush_name _).1, (flush_name _).2]

/-- A call rolls once, in the state that `rolled` gives, or not at all. -/
theorem exec_rolled (libc : Libc) (f : LogFile) (call : Call) :
    (∃ g, rolled libc f call = some g ∧ f.exec libc call = (rollFile libc g).1 ∧ Alike f g) ∨
    (rolled libc f call = none ∧ Alike f (f.exec libc call)) := by
  cases call with
  | flush => exact Or.inr ⟨rfl, flush_alike f⟩
  | rollFile => exact Or.inl ⟨f, rfl, rfl, Alike.refl f⟩
  | append logline =>
    cases opened : f.file with
    | none =>
      refine Or.inr ⟨by simp [rolled, opened], ?_⟩
      rw [exec, append, opened]
      exact Alike.refl f
    | some file =>
      have written : ((some (file.append (libc.fwrite f.calls) logline)).map fun file => (file.name, file.fp)) =
          f.file.map fun file => (file.name, file.fp) := by
        simp [opened, (append_name file _ logline).1, (append_name file _ logline).2]
      simp only [rolled, exec, append, opened, afterWrite]
      by_cases large : f.rollSize < (file.append (libc.fwrite f.calls) logline).writtenBytes
      · rw [if_pos large, if_pos large]
        exact Or.inl ⟨_, rfl, rfl, rfl, rfl, rfl, written⟩
      rw [if_neg large, if_neg large]
      by_cases checks : f.checkEveryN ≤ f.count + 1
      · rw [if_pos checks, if_pos checks]
        by_cases newDay : (libc.time (f.calls + 1)).tdiv kRollPerSeconds * kRollPerSeconds ≠ f.startOfPeriod
        · rw [if_pos newDay, if_pos newDay]
          exact Or.inl ⟨_, rfl, rfl, rfl, rfl, rfl, written⟩
        · rw [if_neg newDay, if_neg newDay]
          refine Or.inr ⟨rfl, ?_⟩
          split
          · refine ⟨rfl, rfl, rfl, ?_⟩
            rw [← written]
            simp [(flush_name _).1, (flush_name _).2]
          · exact ⟨rfl, rfl, rfl, written⟩
      · rw [if_neg checks, if_neg checks]
        exact Or.inr ⟨rfl, rfl, rfl, rfl, written⟩

/-- A roll later than the last one opens a file named after its second. -/
theorem rollFile_later (later : f.lastRoll < libc.time f.calls) :
    (rollFile libc f).1.lastRoll = libc.time f.calls ∧ (rollFile libc f).1.sameSecondSeq = 0 ∧
      (rollFile libc f).1.names = f.names ++ [⟨libc.time f.calls, none⟩] := by
  have other : ¬ libc.time f.calls = f.lastRoll := by omega
  simp [rollFile, makeFilename, other, le_of_lt later, names, files]

/-- A roll within the second of the last one adds the next number to the name. -/
theorem rollFile_same (same : libc.time f.calls = f.lastRoll) :
    (rollFile libc f).1.lastRoll = f.lastRoll ∧ (rollFile libc f).1.sameSecondSeq = increment f.sameSecondSeq ∧
      (rollFile libc f).1.names = f.names ++ [⟨f.lastRoll, some (increment f.sameSecondSeq)⟩] := by
  simp [rollFile, makeFilename, same, names, files]

theorem increment_of_lt {i : Int} (low : 0 ≤ i) (high : i + 1 < 2 ^ 31) : increment i = i + 1 := by
  unfold increment
  apply Int.bmod_eq_of_le <;> omega

/-- A roll behind the last one opens nothing, but the numbers begin again. -/
theorem rollFile_behind (behind : libc.time f.calls < f.lastRoll) :
    (rollFile libc f).1.lastRoll = f.lastRoll ∧ (rollFile libc f).1.sameSecondSeq = 0 ∧
      (rollFile libc f).1.names = f.names := by
  have other : ¬ libc.time f.calls = f.lastRoll := by omega
  have refused : ¬ f.lastRoll ≤ libc.time f.calls := by omega
  simp [rollFile, makeFilename, other, refused, names, files]

theorem Counted.before {more : List Int} (counted : Counted (past ++ more)) : Counted past := by
  intro second
  have shown := counted second
  rw [List.count_append] at shown
  omega

theorem SteppedBack.mono (stepped : SteppedBack past second) (more : List Int) : SteppedBack (past ++ more) second := by
  obtain ⟨before, earlier, after, rfl, twice, lower⟩ := stepped
  exact ⟨before, earlier, after ++ more, by simp, twice, lower⟩

/-- One more reading steps back if it is earlier and the second had been shown twice. -/
theorem steppedBack_concat : SteppedBack (past ++ [now]) second ↔
    SteppedBack past second ∨ now < second ∧ 2 ≤ past.count second := by
  constructor
  · rintro ⟨before, earlier, after, split, twice, lower⟩
    rcases List.eq_nil_or_concat after with rfl | ⟨front, last, rfl⟩
    · obtain ⟨rfl, same⟩ := List.append_inj' split rfl
      cases same
      exact Or.inr ⟨lower, twice⟩
    · rw [List.concat_eq_append, ← List.cons_append, ← List.append_assoc] at split
      obtain ⟨rfl, -⟩ := List.append_inj' split rfl
      exact Or.inl ⟨before, earlier, front, rfl, twice, lower⟩
  · rintro (stepped | ⟨lower, twice⟩)
    · exact stepped.mono [now]
    · exact ⟨past, now, [], rfl, twice, lower⟩

theorem SteppedBack.twice (stepped : SteppedBack past second) : 2 ≤ past.count second := by
  obtain ⟨before, earlier, after, rfl, twice, -⟩ := stepped
  rw [List.count_append]
  omega

/-- What the names are after the readings in `past` as long as no second was
revisited: those of the second of the last roll are numbered from 1 to
`same_second_seq_`, unless the clock has stepped back behind them. -/
structure Named (past : List Int) (f : LogFile) : Prop where
  latest : f.lastRoll ∈ past
  top : ∀ r ∈ past, r ≤ f.lastRoll
  stamps : ∀ name ∈ f.names, name.stamp ≤ f.lastRoll
  nodup : f.names.Nodup
  numbers :
    (¬ SteppedBack past f.lastRoll ∧ (∀ k, ⟨f.lastRoll, some k⟩ ∈ f.names ↔ 1 ≤ k ∧ k ≤ f.sameSecondSeq) ∧
      f.sameSecondSeq + 1 = past.count f.lastRoll) ∨
    (SteppedBack past f.lastRoll ∧ ⟨f.lastRoll, some 1⟩ ∈ f.names ∧ f.sameSecondSeq = 0)

theorem Named.alike (named : Named past f) (alike : Alike f g) : Named past g := by
  obtain ⟨latest, top, stamps, nodup, numbers⟩ := named
  rw [← alike.lastRoll] at latest top stamps numbers
  rw [← alike.names] at stamps nodup numbers
  rw [← alike.sameSecondSeq] at numbers
  exact ⟨latest, top, stamps, nodup, numbers⟩

/-- A roll in a second that no roll was in before. -/
theorem Named.later (named : Named past f) (seen : libc.time f.calls = now) (later : f.lastRoll < now) :
    Named (past ++ [now]) (rollFile libc f).1 := by
  obtain ⟨latest, top, stamps, nodup, -⟩ := named
  obtain ⟨last, seq, added⟩ := @rollFile_later libc f (by omega)
  rw [seen] at last added
  have absent : ∀ seq, (⟨now, seq⟩ : Filename) ∉ f.names := fun seq member =>
    absurd (stamps _ member) (not_le.mpr later)
  have new : now ∉ past := fun member => absurd (top now member) (not_le.mpr later)
  have first : (past ++ [now]).count now = 1 := by
    rw [List.count_append, List.count_eq_zero_of_not_mem new, List.count_singleton_self]
  constructor
  case latest =>
    rw [last]
    exact List.mem_append_right _ (List.mem_singleton.mpr rfl)
  case top =>
    rw [last, List.forall_mem_append, List.forall_mem_singleton]
    exact ⟨fun r old => (top r old).trans later.le, le_rfl⟩
  case stamps =>
    rw [last, added, List.forall_mem_append, List.forall_mem_singleton]
    exact ⟨fun name old => (stamps name old).trans later.le, le_rfl⟩
  case nodup =>
    rw [added]
    exact List.Nodup.append nodup (List.nodup_singleton _) (by simpa using absent none)
  case numbers =>
    rw [last, added, seq, first]
    refine Or.inl ⟨fun stepped => ?_, fun k => ?_, rfl⟩
    · have := stepped.twice
      omega
    · have number : (⟨now, some k⟩ : Filename) ∉ f.names ++ [⟨now, none⟩] := by simp [absent]
      exact iff_of_false number (by omega)

/-- Another roll in the second of the last one. -/
theorem Named.same (named : Named past f) (seen : libc.time f.calls = f.lastRoll)
    (counted : Counted (past ++ [f.lastRoll])) (fine : ¬ SteppedBack past f.lastRoll) :
    Named (past ++ [f.lastRoll]) (rollFile libc f).1 := by
  obtain ⟨latest, top, stamps, nodup, numbers⟩ := named
  obtain ⟨last, seq, added⟩ := @rollFile_same libc f seen
  obtain ⟨-, numbered, count⟩ := numbers.resolve_right fun stepped => fine stepped.1
  have shown : 1 ≤ past.count f.lastRoll := List.count_pos_iff.mpr latest
  have room := counted f.lastRoll
  rw [List.count_append, List.count_singleton_self] at room
  rw [increment_of_lt (by omega) (by omega)] at seq added
  have new : (⟨f.lastRoll, some (f.sameSecondSeq + 1)⟩ : Filename) ∉ f.names := by
    rw [numbered]
    omega
  constructor
  case latest =>
    rw [last]
    exact List.mem_append_left _ latest
  case top =>
    rw [last, List.forall_mem_append, List.forall_mem_singleton]
    exact ⟨top, le_rfl⟩
  case stamps =>
    rw [last, added, List.forall_mem_append, List.forall_mem_singleton]
    exact ⟨stamps, le_rfl⟩
  case nodup =>
    rw [added]
    exact List.Nodup.append nodup (List.nodup_singleton _) (by simpa using new)
  case numbers =>
    rw [last, added, seq, List.count_append, List.count_singleton_self, steppedBack_concat]
    refine Or.inl ⟨?_, fun k => ?_, by omega⟩
    · rintro (old | ⟨lower, -⟩)
      · exact fine old
      · exact lower.false
    · rw [List.mem_append, numbered, List.mem_singleton, Filename.mk.injEq, Option.some.injEq]
      omega

/-- A roll that is refused: the numbers begin again. -/
theorem Named.behind (named : Named past f) (seen : libc.time f.calls = now) (behind : now < f.lastRoll) :
    Named (past ++ [now]) (rollFile libc f).1 := by
  obtain ⟨latest, top, stamps, nodup, numbers⟩ := named
  obtain ⟨last, seq, same⟩ := @rollFile_behind libc f (by omega)
  have other : (past ++ [now]).count f.lastRoll = past.count f.lastRoll := by
    rw [List.count_append, List.count_singleton]
    simp [behind.ne]
  constructor
  case latest =>
    rw [last]
    exact List.mem_append_left _ latest
  case top =>
    rw [last, List.forall_mem_append, List.forall_mem_singleton]
    exact ⟨top, behind.le⟩
  case stamps => rwa [last, same]
  case nodup => rwa [same]
  case numbers =>
    rw [last, same, seq, steppedBack_concat, other]
    rcases numbers with ⟨steady, numbered, count⟩ | ⟨stepped, first, -⟩
    · by_cases twice : 2 ≤ past.count f.lastRoll
      · exact Or.inr ⟨Or.inr ⟨behind, twice⟩, (numbered 1).mpr ⟨le_rfl, by omega⟩, rfl⟩
      · have shown : 1 ≤ past.count f.lastRoll := List.count_pos_iff.mpr latest
        have zero : f.sameSecondSeq = 0 := by omega
        rw [zero] at numbered count
        refine Or.inl ⟨?_, numbered, count⟩
        rintro (old | ⟨-, again⟩)
        · exact steady old
        · exact twice again
    · exact Or.inr ⟨Or.inl stepped, first, rfl⟩

theorem Named.roll (named : Named past f) (seen : libc.time f.calls = now) (counted : Counted (past ++ [now]))
    (fine : now = f.lastRoll → ¬ SteppedBack past now) : Named (past ++ [now]) (rollFile libc f).1 := by
  rcases lt_trichotomy f.lastRoll now with later | same | behind
  · exact named.later seen later
  · subst same
    exact named.same seen counted (fine rfl)
  · exact named.behind seen behind

theorem revisits_concat : Revisits (past ++ [now]) ↔
    Revisits past ∨ SteppedBack past now ∧ ∀ r ∈ past, r ≤ now := by
  constructor
  · rintro ⟨before, second, after, split, stepped, top⟩
    rcases List.eq_nil_or_concat after with rfl | ⟨front, last, rfl⟩
    · obtain ⟨rfl, same⟩ := List.append_inj' split rfl
      cases same
      exact Or.inr ⟨stepped, top⟩
    · rw [List.concat_eq_append, ← List.cons_append, ← List.append_assoc] at split
      obtain ⟨rfl, -⟩ := List.append_inj' split rfl
      exact Or.inl ⟨before, second, front, rfl, stepped, top⟩
  · rintro (⟨before, second, after, rfl, stepped, top⟩ | ⟨stepped, top⟩)
    · exact ⟨before, second, after ++ [now], by simp, stepped, top⟩
    · exact ⟨past, now, [], rfl, stepped, top⟩

/-- What the readings in `past` have made of the names, as long as no counter
has overflowed. -/
structure Follows (past : List Int) (f : LogFile) : Prop where
  named : Counted past → ¬ Revisits past → Named past f
  repeats : Counted past → Revisits past → ¬ f.names.Nodup

theorem Follows.alike (follows : Follows past f) (alike : Alike f g) : Follows past g :=
  ⟨fun counted fine => (follows.named counted fine).alike alike, fun counted revisits => by
    rw [alike.names]
    exact follows.repeats counted revisits⟩

theorem rollFile_keeps_names (libc : Libc) (f : LogFile) : f.names <+: (rollFile libc f).1.names := by
  rcases lt_trichotomy f.lastRoll (libc.time f.calls) with later | same | behind
  · rw [(rollFile_later later).2.2]
    exact List.prefix_append _ _
  · rw [(rollFile_same same.symm).2.2]
    exact List.prefix_append _ _
  · have same := (rollFile_behind behind).2.2
    exact ⟨[], by rw [same, List.append_nil]⟩

/-- A roll that revisits a second gives a name the second time. -/
theorem Named.repeats (named : Named past f) (stepped : SteppedBack past (libc.time f.calls))
    (top : ∀ r ∈ past, r ≤ libc.time f.calls) : ¬ (rollFile libc f).1.names.Nodup := by
  have shown : libc.time f.calls ∈ past := by
    rw [← List.count_pos_iff]
    have := stepped.twice
    omega
  have same : libc.time f.calls = f.lastRoll := le_antisymm (named.top _ shown) (top _ named.latest)
  rw [same] at stepped
  rcases named.numbers with ⟨steady, -⟩ | ⟨-, first, seq⟩
  · exact absurd stepped steady
  · rw [(rollFile_same same).2.2, seq, List.nodup_append]
    rintro ⟨-, -, apart⟩
    exact apart _ first _ (List.mem_singleton.mpr rfl) rfl

theorem Follows.roll (follows : Follows past f) :
    Follows (past ++ [libc.time f.calls]) (rollFile libc f).1 := by
  constructor
  · intro counted fine
    have before : ¬ Revisits past := fun revisits => fine (revisits_concat.mpr (Or.inl revisits))
    have named := follows.named counted.before before
    refine named.roll rfl counted fun same stepped => ?_
    refine fine (revisits_concat.mpr (Or.inr ⟨stepped, fun r member => ?_⟩))
    rw [same]
    exact named.top r member
  · intro counted revisits
    by_cases before : Revisits past
    · exact fun nodup => follows.repeats counted.before before (nodup.sublist (rollFile_keeps_names libc f).sublist)
    · obtain ⟨stepped, top⟩ := (revisits_concat.mp revisits).resolve_left before
      exact (follows.named counted.before before).repeats stepped top

theorem rolls_append (libc : Libc) (f : LogFile) (calls more : List Call) :
    rolls libc f (calls ++ more) = rolls libc f calls ++ rolls libc (f.after libc calls) more := by
  induction calls generalizing f with
  | nil => rfl
  | cons first rest ih => simp only [List.cons_append, rolls, ih, List.append_assoc, after, List.foldl_cons]

/-- Nothing is named before the roll in the constructor. -/
theorem blank_follows (rollSize flushInterval checkEveryN : Int) :
    Follows [0] ({ rollSize, flushInterval, checkEveryN } : LogFile) := by
  have once : ∀ {second : Int}, ¬ SteppedBack [0] second := by
    intro second stepped
    have twice := stepped.twice
    have few := List.count_le_length (a := second) (l := [0])
    rw [List.length_singleton] at few
    omega
  refine ⟨fun _ _ => ⟨List.mem_singleton.mpr rfl, fun r member => (List.mem_singleton.mp member).le, ?_, List.nodup_nil,
    Or.inl ⟨once, fun k => ?_, rfl⟩⟩, ?_⟩
  · intro name member
    cases member
  · constructor
    · intro member
      cases member
    · intro ⟨low, high⟩
      exact absurd (low.trans high) (by decide : ¬ (1 : Int) ≤ 0)
  · rintro - ⟨before, second, after, split, stepped, -⟩
    have twice := stepped.twice
    have few := List.count_le_length (a := second) (l := before)
    have length := congrArg List.length split
    rw [List.length_singleton, List.length_append, List.length_cons] at length
    omega

theorem after_follows (libc : Libc) (rollSize flushInterval checkEveryN : Int) (calls : List Call) :
    Follows (0 :: readings libc rollSize flushInterval checkEveryN calls)
      (after libc (make libc rollSize flushInterval checkEveryN) calls) := by
  induction calls using List.reverseRecOn with
  | nil => exact (blank_follows rollSize flushInterval checkEveryN).roll
  | append_singleton calls call ih =>
    have last : after libc (make libc rollSize flushInterval checkEveryN) (calls ++ [call]) =
        (after libc (make libc rollSize flushInterval checkEveryN) calls).exec libc call := by
      simp only [after, List.foldl_append, List.foldl_cons, List.foldl_nil]
    rw [last, readings, rolls_append, List.map_append, rolls, rolls, List.append_nil]
    rcases exec_rolled libc (after libc (make libc rollSize flushInterval checkEveryN) calls) call with
      ⟨g, at_roll, done, alike⟩ | ⟨no_roll, alike⟩
    · rw [at_roll, done]
      exact (ih.alike alike).roll
    · rw [no_roll, Option.toList_none, List.map_nil, List.append_nil]
      exact ih.alike alike

theorem rollFile_opened (opens : ∀ n, libc.fopen n = true) (opened : ∀ file ∈ f.files, file.fp = true) :
    ∀ file ∈ (rollFile libc f).1.files, file.fp = true := by
  intro file member
  by_cases taken : f.lastRoll ≤ libc.time f.calls
  · have split : (rollFile libc f).1.files =
        f.files ++ [{ name := (f.makeFilename (libc.time f.calls)).1, fp := libc.fopen (f.calls + 1) }] := by
      simp [rollFile, taken, files]
    rw [split] at member
    rcases List.mem_append.mp member with old | new
    · exact opened file old
    · rw [List.mem_singleton.mp new]
      exact opens _
  · have same : (rollFile libc f).1.files = f.files := by
      simp [rollFile, taken, files]
    rw [same] at member
    exact opened file member

theorem after_opened (opens : ∀ n, libc.fopen n = true) (opened : ∀ file ∈ f.files, file.fp = true)
    (calls : List Call) : ∀ file ∈ (after libc f calls).files, file.fp = true := by
  induction calls generalizing f with
  | nil => exact opened
  | cons call rest ih =>
    refine ih (f := f.exec libc call) ?_
    rcases exec_rolled libc f call with ⟨g, -, done, alike⟩ | ⟨-, alike⟩
    · rw [done]
      exact rollFile_opened opens (alike.opened opened)
    · exact alike.opened opened

/-- The names given to `fopen` are distinct just when no second is revisited. -/
theorem names_nodup_iff {libc : Libc} {rollSize flushInterval checkEveryN : Int} {calls : List Call}
    (counted : Counted (0 :: readings libc rollSize flushInterval checkEveryN calls)) :
    (after libc (make libc rollSize flushInterval checkEveryN) calls).names.Nodup ↔
      ¬ Revisits (0 :: readings libc rollSize flushInterval checkEveryN calls) := by
  have follows := after_follows libc rollSize flushInterval checkEveryN calls
  exact ⟨fun nodup revisits => follows.repeats counted revisits nodup, fun fine => (follows.named counted fine).nodup⟩

/-- Over any sequence of calls and any clock that shows no second more than
2^31 times: the opened files have distinct names if the clock does not come
back to a second that it was rolled in twice after having stepped back behind
it; and where every file opens, only then. What a new `LogFile` takes for its
last roll, 0, counts as a reading. -/
theorem opened_names_unique (libc : Libc) (rollSize flushInterval checkEveryN : Int) (calls : List Call) :
    (Counted (0 :: readings libc rollSize flushInterval checkEveryN calls) →
      ¬ Revisits (0 :: readings libc rollSize flushInterval checkEveryN calls) →
        (after libc (make libc rollSize flushInterval checkEveryN) calls).openedNames.Nodup) ∧
    (Counted (0 :: readings libc rollSize flushInterval checkEveryN calls) → (∀ n, libc.fopen n = true) →
      ((after libc (make libc rollSize flushInterval checkEveryN) calls).openedNames.Nodup ↔
        ¬ Revisits (0 :: readings libc rollSize flushInterval checkEveryN calls))) := by
  constructor
  · intro counted fine
    exact ((names_nodup_iff counted).mpr fine).sublist (List.filter_sublist.map _)
  · intro counted opens
    have first : ∀ file ∈ (make libc rollSize flushInterval checkEveryN).files, file.fp = true :=
      rollFile_opened opens fun file member => by cases member
    have all := after_opened opens first calls
    rw [openedNames, List.filter_eq_self.mpr all]
    exact names_nodup_iff counted

/-- The clock shows 5, 5, 4 and 5 to four rolls. -/
def setBack : Libc where
  time n := if n = 4 then 4 else 5
  fopen _ := true
  fwrite _ len := len

/-- The second and the fourth roll open the same file. -/
theorem setBack_repeats_name :
    readings setBack 100 3 1024 [.rollFile, .rollFile, .rollFile] = [5, 5, 4, 5] ∧
      (after setBack (make setBack 100 3 1024) [.rollFile, .rollFile, .rollFile]).openedNames =
        [⟨5, none⟩, ⟨5, some 1⟩, ⟨5, some 1⟩] ∧
      ¬ (after setBack (make setBack 100 3 1024) [.rollFile, .rollFile, .rollFile]).openedNames.Nodup := by
  have names : (after setBack (make setBack 100 3 1024) [.rollFile, .rollFile, .rollFile]).openedNames =
      [⟨5, none⟩, ⟨5, some 1⟩, ⟨5, some 1⟩] := rfl
  refine ⟨by decide +kernel, names, ?_⟩
  rw [names]
  simp

end CoroNet.LogFile
