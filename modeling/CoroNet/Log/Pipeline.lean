import CoroNet.General.Lines
import CoroNet.Log.Delivery
import CoroNet.Log.Record
import CoroNet.Log.Rotation
import Mathlib.Data.List.Infix

namespace CoroNet

open Transition

/-- What may be on the disk: the files that are closed, and of the open one at
least what has been flushed. -/
def LogFile.Persisted (f : LogFile) (bytes : List UInt8) : Prop :=
  ∃ n, (∀ file, f.file = some file → file.flushed ≤ n) ∧
    bytes = f.closed.flatMap AppendFile.content ++ f.file.toList.flatMap fun file => file.content.take n

theorem LogFile.Holds.after {libc : Libc} {f : LogFile} {chunks : List (List UInt8)} (sound : LogFile.Succeeds libc)
    (held : LogFile.Holds libc f chunks) (calls : List LogFile.Call) :
    LogFile.Holds libc (f.after libc calls) (chunks ++ LogFile.chunks calls) := by
  induction calls generalizing f chunks with
  | nil => rwa [LogFile.chunks, List.filterMap_nil, List.append_nil]
  | cons call calls ih =>
    have executed : LogFile.Holds libc (f.exec libc call) (chunks ++ call.chunk.toList) := held.exec sound
    have rest := ih executed
    have chunk : LogFile.chunks (call :: calls) = call.chunk.toList ++ LogFile.chunks calls := by
      cases given : call.chunk <;> simp [LogFile.chunks, given]
    rwa [chunk, ← List.append_assoc]

theorem LogFile.Holds.flush_flushed {libc : Libc} {f : LogFile} {chunks : List (List UInt8)} {file : AppendFile}
    (held : LogFile.Holds libc f chunks) (opened : f.flush.file = some file) : file.flushed = file.content.length := by
  obtain ⟨closed, current, tracks, _⟩ := held
  obtain ⟨before, here, took⟩ := tracks.opened
  rw [LogFile.flush, here, Option.map_some, Option.some.injEq] at opened
  subst opened
  rw [AppendFile.flush, if_pos took.fp]

/-- A file keeps what it holds when it is closed. -/
theorem LogFile.Persisted.begins {f : LogFile} {bytes : List UInt8} (kept : f.Persisted bytes) :
    bytes <+: f.files.flatMap AppendFile.content := by
  obtain ⟨n, _, rfl⟩ := kept
  rw [LogFile.files, List.flatMap_append]
  refine List.prefix_append_right_inj _ |>.mpr ?_
  cases f.file with
  | none => exact List.prefix_rfl
  | some file => simpa using List.take_prefix n file.content

/-- Everything the open file holds has been flushed. -/
def LogFile.Flushed (f : LogFile) : Prop := ∀ file, f.file = some file → file.flushed = file.content.length

theorem LogFile.Persisted.whole {f : LogFile} {bytes : List UInt8} (kept : f.Persisted bytes) (flushed : f.Flushed) :
    bytes = f.files.flatMap AppendFile.content := by
  obtain ⟨n, least, rfl⟩ := kept
  rw [LogFile.files, List.flatMap_append]
  cases opened : f.file with
  | none => rfl
  | some file =>
    have all : file.content.length ≤ n := (flushed file opened).symm.le.trans (least file opened)
    simp [List.take_of_length_le all]

/-- The least that may be on the disk. -/
def LogFile.settled (f : LogFile) : List UInt8 :=
  f.closed.flatMap AppendFile.content ++ f.file.toList.flatMap fun file => file.content.take file.flushed

theorem LogFile.persisted_settled (f : LogFile) : f.Persisted f.settled := by
  cases opened : f.file with
  | none => exact ⟨0, by simp [opened], by simp [LogFile.settled, opened]⟩
  | some file => exact ⟨file.flushed, by simp [opened], by simp [LogFile.settled, opened]⟩

theorem LogFile.Persisted.settled_prefix {f : LogFile} {bytes : List UInt8} (kept : f.Persisted bytes) :
    f.settled <+: bytes := by
  obtain ⟨n, least, rfl⟩ := kept
  refine List.prefix_append_right_inj _ |>.mpr ?_
  cases opened : f.file with
  | none => exact List.prefix_rfl
  | some file => simpa using List.take_prefix_take_left (least file opened)

theorem AppendFile.append_settled (file : AppendFile) (fwrite : Nat → Nat) (logline : List UInt8) :
    file.content.take file.flushed <+:
      (file.append fwrite logline).content.take (file.append fwrite logline).flushed := by
  unfold AppendFile.append
  split
  · exact List.prefix_rfl
  · exact List.IsPrefix.take (List.prefix_append _ _) _

theorem AppendFile.flush_settled (file : AppendFile) :
    file.content.take file.flushed <+: file.flush.content.take file.flush.flushed := by
  unfold AppendFile.flush
  split
  · rw [List.take_length]
    exact List.take_prefix _ _
  · exact List.prefix_rfl

namespace LogFile

variable {libc : Libc} {f : LogFile}

theorem settled_of_file {f g : LogFile} {file file' : AppendFile} (closed : g.closed = f.closed)
    (before : f.file = some file) (after : g.file = some file')
    (grows : file.content.take file.flushed <+: file'.content.take file'.flushed) : f.settled <+: g.settled := by
  rw [settled, settled, closed, before, after]
  exact List.prefix_append_right_inj _ |>.mpr (by simpa using grows)

theorem settled_flush : f.settled <+: f.flush.settled := by
  cases opened : f.file with
  | none => exact (by simp [settled, flush, opened] : f.settled = f.flush.settled) ▸ List.prefix_rfl
  | some file => exact settled_of_file rfl opened (by simp [flush, opened]) file.flush_settled

/-- A roll closes the file, which writes out what it holds. -/
theorem settled_rollFile : f.settled <+: (rollFile libc f).1.settled := by
  simp only [rollFile]
  split
  · have whole : f.settled <+: f.files.flatMap AppendFile.content := f.persisted_settled.begins
    simpa [settled] using whole
  · exact List.prefix_rfl

theorem settled_afterWrite (writtenBytes : Int) : f.settled <+: (afterWrite libc f writtenBytes).settled := by
  unfold afterWrite
  split
  · exact settled_rollFile
  · split
    · dsimp only
      split
      · exact settled_rollFile (f := { f with count := 0, calls := f.calls + 1 })
      · split
        · exact settled_flush (f := { f with count := 0, calls := f.calls + 1, lastFlush := libc.time f.calls })
        · exact List.prefix_rfl
    · exact List.prefix_rfl

/-- What is on the disk stays there. -/
theorem settled_exec (call : Call) : f.settled <+: (f.exec libc call).settled := by
  cases call with
  | append logline =>
    simp only [exec, append]
    split
    next => exact List.prefix_rfl
    next file opened =>
      have written := file.append_settled (libc.fwrite f.calls) logline
      have grown : f.settled <+:
          settled { f with file := some (file.append (libc.fwrite f.calls) logline), calls := f.calls + 1 } :=
        settled_of_file rfl opened rfl written
      exact grown.trans (settled_afterWrite _)
  | flush => exact settled_flush
  | rollFile => exact settled_rollFile

theorem settled_after (calls : List Call) : f.settled <+: (f.after libc calls).settled := by
  induction calls generalizing f with
  | nil => exact List.prefix_rfl
  | cons call calls ih => exact (settled_exec call).trans ih

end LogFile

namespace AsyncLogger

/-- What a step of `thread_func` calls on its `LogFile`. -/
def World.fileCalls (w : World) : List LogFile.Call :=
  match w.backend with
  | .limit =>
    if w.buffersToWrite.length > 25 then [.append (Chunk.dropped (w.buffersToWrite.length - 2)).bytes] else []
  | .writing (some b :: _) | .flushing (some b :: _) => [.append b.data]
  | .recycle | .flushing [] => [.flush]
  | _ => []

/-- The logger with the files of its back-end. -/
structure Logging where
  logger : World := start
  output : LogFile

namespace Logging

def step (libc : Libc) (s : Logging) (a : Act) : Option Logging :=
  (AsyncLogger.step s.logger a).map fun w =>
    { logger := w
      output := match a with
        | .back => s.output.after libc s.logger.fileCalls
        | _ => s.output }

/-- `check_every_n` has its default. -/
def start (libc : Libc) (rollSize flushInterval : Int) : Logging where
  output := LogFile.make libc rollSize flushInterval 1024

end Logging

/-- The back-end has flushed since it last wrote. -/
def Backend.calm : Backend → Bool
  | .writing _ | .recycle | .flushing _ => false
  | _ => true

/-- The files hold the chunks handed over, and what is written is flushed. -/
structure Logging.Follows (libc : Libc) (s : Logging) : Prop where
  holds : LogFile.Holds libc s.output (s.logger.output.map Chunk.bytes)
  flushed : s.logger.backend.calm = true → s.output.Flushed

variable {libc : Libc} {w w' next : World} {s s' : Logging} {f : LogFile} {a : Act} {bytes : List UInt8}
  {chunks : List (List UInt8)} {rollSize flushInterval : Int}

theorem World.back_output (done : w.back = .ok next) :
    next.output.map Chunk.bytes = w.output.map Chunk.bytes ++ LogFile.chunks w.fileCalls := by
  unfold World.back at done
  unfold World.fileCalls
  cases control : w.backend with
  | top | waiting | exited =>
    simp only [control, Except.ok.injEq] at done
    subst done
    exact (List.append_nil _).symm
  | lock =>
    simp only [control, Except.ok.injEq] at done
    subst done
    split <;> exact (List.append_nil _).symm
  | limit =>
    simp only [control, Except.ok.injEq] at done
    subst done
    unfold World.limit
    split
    · rw [List.map_append]
      rfl
    · exact (List.append_nil _).symm
  | writing rest =>
    simp only [control] at done
    unfold World.write at done
    split at done
    · cases Except.ok.inj done
      exact (List.append_nil _).symm
    · cases done
    · cases Except.ok.inj done
      rw [List.map_append]
      rfl
  | recycle =>
    simp only [control] at done
    rw [(World.recycle_frame done).2]
    exact (List.append_nil _).symm
  | final =>
    simp only [control, Except.ok.injEq] at done
    subst done
    unfold World.final
    split
    · exact (List.append_nil _).symm
    · split <;> exact (List.append_nil _).symm
  | flushing rest =>
    simp only [control, Except.ok.injEq] at done
    subst done
    unfold World.flush
    split
    · exact (List.append_nil _).symm
    · exact (List.append_nil _).symm
    · rw [List.map_append]
      rfl

/-- The back-end comes to rest with a flush, and writes nothing while it rests. -/
theorem World.back_calm (done : w.back = .ok next) (calm : next.backend.calm = true) :
    w.backend.calm = true ∧ w.fileCalls = [] ∨ w.fileCalls = [.flush] := by
  unfold World.back at done
  unfold World.fileCalls
  cases control : w.backend with
  | top | lock | waiting | exited => exact Or.inl ⟨rfl, rfl⟩
  | limit =>
    simp only [control, Except.ok.injEq] at done
    subst done
    unfold World.limit at calm
    split at calm <;> cases calm
  | writing rest =>
    simp only [control] at done
    unfold World.write at done
    split at done
    · cases Except.ok.inj done
      cases calm
    · cases done
    · cases Except.ok.inj done
      cases calm
  | recycle => exact Or.inr rfl
  | final => exact Or.inl ⟨rfl, rfl⟩
  | flushing rest =>
    cases rest with
    | nil => exact Or.inr rfl
    | cons p rest =>
      simp only [control, Except.ok.injEq] at done
      subst done
      cases p <;> cases calm

theorem World.append_backend {line : Line} (done : w.append line = .ok next) : next.backend = w.backend := by
  unfold World.append at done
  split at done
  · cases done
  · split at done
    · cases Except.ok.inj done
      rfl
    · split at done
      · cases done
      · cases Except.ok.inj done
        rfl

/-- Only the back-end's own steps write. -/
theorem Move.aside (move : Move w a w') (front : a ≠ .back) : w'.output = w.output ∧ w'.backend = w.backend := by
  cases move with
  | @lock _ _ next _ done =>
    have same : next.backend = w.backend := World.append_backend done
    exact ⟨(World.append_frame done).2.1, same⟩
  | back | backFault => exact absurd rfl front
  | _ => exact ⟨rfl, rfl⟩

theorem Inv.back_ok (inv : Inv w) (move : step w .back = some w') : w.back = .ok w' := by
  cases step_move move with
  | back _ done => exact done
  | backFault inside failed =>
    obtain ⟨next, done, _⟩ := inv.back inside
    cases done.symm.trans failed

namespace Logging

theorem step_logger (move : step libc s a = some s') : AsyncLogger.step s.logger a = some s'.logger := by
  obtain ⟨w, moved, rfl⟩ := Option.map_eq_some_iff.mp move
  exact moved

theorem step_output (move : step libc s a = some s') (front : a ≠ .back) : s'.output = s.output := by
  obtain ⟨w, _, rfl⟩ := Option.map_eq_some_iff.mp move
  cases a with
  | back => exact absurd rfl front
  | _ => rfl

theorem step_back_output (move : step libc s .back = some s') : s'.output = s.output.after libc s.logger.fileCalls := by
  obtain ⟨w, _, rfl⟩ := Option.map_eq_some_iff.mp move
  rfl

/-- A step makes some calls of the log file. -/
theorem step_after (move : step libc s a = some s') : ∃ calls, s'.output = s.output.after libc calls := by
  by_cases front : a = .back
  · subst front
    exact ⟨_, step_back_output move⟩
  · exact ⟨[], step_output move front⟩

theorem Follows.start (sound : LogFile.Succeeds libc) (rollSize flushInterval : Int) :
    (start libc rollSize flushInterval).Follows libc := by
  refine ⟨LogFile.make_holds sound rollSize flushInterval 1024, fun _ file opened => ?_⟩
  have now : (0 : Int) ≤ libc.time 0 := sound.epoch
  simp only [Logging.start, LogFile.make, LogFile.rollFile, now, if_true, Option.some.injEq] at opened
  subst opened
  rfl

theorem Follows.step (sound : LogFile.Succeeds libc) (inv : Inv s.logger) (follows : s.Follows libc)
    (move : Logging.step libc s a = some s') : s'.Follows libc := by
  by_cases front : a = .back
  · subst front
    have done := inv.back_ok (step_logger move)
    have output := step_back_output move
    have held := follows.holds.after sound s.logger.fileCalls
    rw [← World.back_output done, ← output] at held
    refine ⟨held, fun calm file opened => ?_⟩
    rcases World.back_calm done calm with ⟨rested, none_called⟩ | flushed
    · rw [output, none_called] at opened
      exact follows.flushed rested file opened
    · rw [output, flushed] at opened
      exact follows.holds.flush_flushed opened
  · obtain ⟨chunks, backend⟩ := (step_move (step_logger move)).aside front
    have output := step_output move front
    refine ⟨?_, fun calm file opened => ?_⟩
    · rw [output, chunks]
      exact follows.holds
    · rw [output] at opened
      rw [backend] at calm
      exact follows.flushed calm file opened

/-- Every run of the logger with its files is one of the logger. -/
theorem run_logger {acts : List Act}
    (reach : RunWhile (Logging.step libc) (fun s a => s.logger.timely a = true) (start libc rollSize flushInterval) acts s) :
    RunWhile AsyncLogger.step (fun w a => w.timely a = true) (start libc rollSize flushInterval).logger acts s.logger :=
  reach.project logger fun move => step_logger move

theorem run_follows (sound : LogFile.Succeeds libc) {acts : List Act}
    (reach : RunWhile (Logging.step libc) (fun s a => s.logger.timely a = true) (start libc rollSize flushInterval) acts s) :
    s.Follows libc := by
  have kept : Inv s.logger ∧ s.Follows libc :=
    reach.invariant (P := fun s => Inv s.logger ∧ s.Follows libc) ⟨.start, .start sound rollSize flushInterval⟩
      fun held timely move => ⟨step_inv held.1 timely (step_logger move), held.2.step sound held.1 move⟩
  exact kept.2

/-- What has reached the disk at some point of a run is on it from there on. -/
theorem run_settled {acts : List Act}
    (reach : RunWhile (Logging.step libc) (fun s a => s.logger.timely a = true) s acts s') :
    s.output.settled <+: s'.output.settled := by
  refine reach.invariant (P := fun t => s.output.settled <+: t.output.settled) List.prefix_rfl ?_
  intro t a u held _ move
  obtain ⟨calls, output⟩ := step_after move
  rw [output]
  exact held.trans (LogFile.settled_after calls)

theorem run_rollSize {acts : List Act}
    (reach : RunWhile (Logging.step libc) (fun s a => s.logger.timely a = true) (start libc rollSize flushInterval) acts s) :
    s.output.rollSize = rollSize := by
  refine reach.invariant (P := fun s => s.output.rollSize = rollSize) LogFile.rollFile_rollSize ?_
  intro s a s' same _ move
  obtain ⟨calls, output⟩ := step_after move
  rw [output, LogFile.after_rollSize, same]

end Logging

theorem handed_of_none_dropped {output : List Chunk} (none_dropped : ∀ n, .dropped n ∉ output) :
    output.map Chunk.bytes = handed output ∧ reported output = 0 := by
  induction output with
  | nil => exact ⟨rfl, rfl⟩
  | cons chunk output ih =>
    obtain ⟨same, none_reported⟩ := ih fun n member => none_dropped n (List.mem_cons_of_mem _ member)
    cases chunk with
    | dropped n => exact absurd List.mem_cons_self (none_dropped n)
    | lines data =>
      constructor
      · rw [List.map_cons, same]
        rfl
      · rw [reported, List.map_cons, List.sum_cons, Nat.zero_add]
        exact none_reported

/-- Where nothing was erased, the files get the log from its beginning. -/
theorem Accounts.handed_prefix {l : Ledger} (account : Accounts w l) (none_dropped : reported w.output = 0) :
    ∃ rest, w.history.flatten = (handed w.output).flatten ++ rest ∧ (l.Closed → rest = []) := by
  have written := account.written
  rw [List.filter_eq_self.mpr (account.all_handed none_dropped)] at written
  have stream : (handed w.output).flatten = (l.settled.map Prod.snd).flatten.flatten := by
    rw [written, List.flatten_flatten, List.map_map]
    rfl
  refine ⟨(l.writing.flatten ++ l.erased.flatten ++ l.queued.flatten ++ l.current).flatten, ?_, fun closed => ?_⟩
  · rw [account.history, stream, Ledger.lines]
    simp only [List.flatten_append, List.append_assoc]
  · obtain ⟨writing, erased, queued, blank⟩ := closed
    simpa [writing, erased, queued] using blank

/-- Whatever the interleaving of the appends, the back-end and the shutdown,
and whenever the process ends, its files hold the chunks handed over from the
first one on, none of them over the border of two files, and everything that
was handed over before a flush. Unless buffers were erased that is the log in
lock order, cut off somewhere; after the shutdown it is the whole log. -/
theorem files_hold_log (sound : LogFile.Succeeds libc) {acts : List Act}
    (reach : RunWhile (Logging.step libc) (fun s a => s.logger.timely a = true)
      (Logging.start libc rollSize flushInterval) acts s) :
    LogFile.Preserves (max rollSize 0) s.output.files (s.logger.output.map Chunk.bytes) ∧
      (s.logger.backend.calm = true → s.output.Flushed) ∧
      ∀ bytes, s.output.Persisted bytes → bytes <+: (s.logger.output.map Chunk.bytes).flatten ∧
        (∀ before since t, RunWhile (Logging.step libc) (fun s a => s.logger.timely a = true)
            (Logging.start libc rollSize flushInterval) before t →
          RunWhile (Logging.step libc) (fun s a => s.logger.timely a = true) t since s →
          t.output.Flushed → (t.logger.output.map Chunk.bytes).flatten <+: bytes) ∧
        ((∀ n, .dropped n ∉ s.logger.output) → bytes <+: s.logger.history.flatten ∧
          (s.logger.stopper = .returned → bytes = s.logger.history.flatten)) := by
  have inv := run_inv (Logging.run_logger reach)
  have follows := Logging.run_follows sound reach
  have size : s.output.rollSize = rollSize := Logging.run_rollSize reach
  have preserves := follows.holds.preserves
  rw [size] at preserves
  refine ⟨preserves, follows.flushed, fun bytes kept => ?_⟩
  have stream := preserves.stream
  refine ⟨stream ▸ kept.begins, fun before since t first later flushed => ?_, fun none_dropped => ?_⟩
  · have handed := (Logging.run_follows sound first).holds.preserves.stream
    rw [← handed, ← t.output.persisted_settled.whole flushed]
    exact (Logging.run_settled later).trans kept.settled_prefix
  · obtain ⟨same, none_reported⟩ := handed_of_none_dropped none_dropped
    rw [same] at stream
    constructor
    · obtain ⟨l, account⟩ := inv.account
      obtain ⟨rest, history, _⟩ := account.handed_prefix none_reported
      rw [history, ← stream]
      exact kept.begins.trans (List.prefix_append _ rest)
    · intro returned
      have out := inv.flags.joined (Or.inr returned)
      have calm : s.logger.backend.calm = true := by rw [out]; rfl
      obtain ⟨l, account, closed⟩ := inv.closed out
      obtain ⟨rest, history, nothing⟩ := account.handed_prefix none_reported
      rw [history, nothing closed, List.append_nil, ← stream]
      exact kept.whole (follows.flushed calm)

/-- A `Logger` with no line break in what is streamed into it, and with room
for its own, hands this over. -/
def IsRecord (line : Line) : Prop :=
  ∃ (c : LogCache) (env : LogEnv) (path : List UInt8) (number : Int) (origin : Logger.Origin) (values : List Value),
    let l := (Logger.make c env path number origin).1.putAll values
    l.Room ∧ origin.Plain ∧ newline ∉ path ∧ (∀ v ∈ values, v.Plain) ∧ line = l.record

theorem IsRecord.eq {line : Line} (made : IsRecord line) : ∃ body, newline ∉ body ∧ line = body ++ [newline] := by
  obtain ⟨c, env, path, number, origin, values, room, from_, plain, streamed, rfl⟩ := made
  obtain ⟨digits, number_plain, record⟩ := Logger.record_of_room room
  have name : ((Logger.make c env path number origin).1.putAll values).file = sourceFile path := Logger.make_file
  have file := Logger.sourceFile_plain plain
  rw [← name] at file
  have head := Logger.head_plain (LogStream.putAll_plain (Logger.make_plain from_) streamed) file
  exact ⟨_, fun member => (List.mem_append.mp member).elim head number_plain, record⟩

/-- What is true of every line handed to `append`. -/
structure World.Only (P : Line → Prop) (w : World) : Prop where
  coming : ∀ thread line, w.callers thread = .entered line ∨ w.callers thread = .passed line → P line
  history : ∀ line ∈ w.history, P line

theorem World.Only.update {P : Line → Prop} {w : World} (only : w.Only P) {thread : Nat} {caller : Caller}
    (line_at : ∀ line, caller = .entered line ∨ caller = .passed line → P line) (other : Nat) (line : Line)
    (here : Function.update w.callers thread caller other = .entered line ∨
      Function.update w.callers thread caller other = .passed line) : P line := by
  by_cases same : other = thread
  · subst same
    rw [Function.update_self] at here
    exact line_at line here
  · rw [Function.update_of_ne same] at here
    exact only.coming other line here

/-- The lines that are called are the lines that are appended. -/
theorem Move.only {P : Line → Prop} (move : Move w a w') (only : w.Only P)
    (called : ∀ thread line, a = .call thread line → P line) : w'.Only P := by
  have idle : ∀ line, Caller.idle = .entered line ∨ Caller.idle = .passed line → P line := nofun
  cases move with
  | @call thread line _ =>
    refine ⟨only.update fun line' here => ?_, only.history⟩
    rcases here with here | here
    · cases here
      exact called thread line rfl
    · cases here
  | refused => exact ⟨only.update idle, only.history⟩
  | @passed thread line here =>
    refine ⟨only.update fun line' gone => ?_, only.history⟩
    rcases gone with gone | gone
    · cases gone
    · cases gone
      exact only.coming thread line (Or.inl here)
  | @lock thread line _ here _ =>
    refine ⟨only.update idle, fun line' member => ?_⟩
    rcases List.mem_append.mp member with before | new
    · exact only.history line' before
    · rw [List.mem_singleton.mp new]
      exact only.coming thread line (Or.inr here)
  | back _ done =>
    obtain ⟨frame, _⟩ := World.back_frame done
    exact ⟨fun thread line here => only.coming thread line (frame.callers ▸ here),
      fun line member => only.history line (frame.history ▸ member)⟩
  | _ => exact ⟨only.coming, only.history⟩

/-- Every line that is appended is the record of a `Logger`. -/
def Act.Records : Act → Prop
  | .call _ line => IsRecord line
  | _ => True

theorem history_records {acts : List Act} (reach : RunWhile step (fun _ a => a.Records) start acts w) :
    ∀ line ∈ w.history, IsRecord line := by
  have only : w.Only IsRecord := by
    refine reach.invariant (P := World.Only IsRecord) ⟨nofun, nofun⟩ fun {w a w'} only records move => ?_
    refine (step_move move).only only fun thread line here => ?_
    subst here
    exact records
  exact only.history

theorem exists_bodies {lines : List Line} (records : ∀ line ∈ lines, IsRecord line) :
    ∃ bodies : List Line, (∀ body ∈ bodies, newline ∉ body) ∧ lines = bodies.map (· ++ [newline]) := by
  induction lines with
  | nil => exact ⟨[], nofun, rfl⟩
  | cons line lines ih =>
    obtain ⟨body, plain, rfl⟩ := (records line List.mem_cons_self).eq
    obtain ⟨bodies, others, rfl⟩ := ih fun other member => records other (List.mem_cons_of_mem _ member)
    exact ⟨body :: bodies, List.forall_mem_cons.mpr ⟨plain, others⟩, rfl⟩

/-- Read line by line, the files give the records of the `Logger`s from the
first on, in the order in which their appends took the lock, and all of them
after the shutdown: no record is cut in two, runs into the next one or is
there twice. A line that has not ended is not read. -/
theorem records_read_back (sound : LogFile.Succeeds libc) {acts : List Act} {bytes : List UInt8}
    (reach : RunWhile (Logging.step libc) (fun s a => s.logger.timely a = true ∧ a.Records)
      (Logging.start libc rollSize flushInterval) acts s)
    (none_dropped : ∀ n, .dropped n ∉ s.logger.output) (kept : s.output.Persisted bytes) :
    (Lines.complete newline bytes).map (· ++ [newline]) <+: s.logger.history ∧
      (s.logger.stopper = .returned → (Lines.complete newline bytes).map (· ++ [newline]) = s.logger.history) := by
  have timely : RunWhile (Logging.step libc) (fun s a => s.logger.timely a = true) _ acts s :=
    reach.weaken fun _ _ _ _ met => met.1
  have logger : RunWhile step (fun _ a => a.Records) (Logging.start libc rollSize flushInterval).logger acts s.logger :=
    (reach.weaken fun _ _ _ _ met => met.2).project Logging.logger fun move => Logging.step_logger move
  obtain ⟨begins, whole⟩ := ((files_hold_log sound timely).2.2 bytes kept).2.2 none_dropped
  obtain ⟨bodies, plain, history⟩ := exists_bodies (history_records logger)
  have log : s.logger.history.flatten = Lines.join newline bodies := by rw [history, Lines.join, List.flatMap_def]
  rw [log] at begins whole
  rw [history]
  refine ⟨(Lines.complete_of_prefix plain begins).map _, fun returned => ?_⟩
  rw [whole returned, Lines.complete_join plain]

theorem files_hold_two_lines :
    let s := after (Logging.step LogFile.steady) (Logging.start LogFile.steady 4 3) (twoLines ++ .shutdown :: closing)
    s.logger.stopper = .returned ∧ ∀ bytes, s.output.Persisted bytes → bytes = [98, 10, 97, 10] := by
  intro s
  have reach : RunWhile (Logging.step LogFile.steady) (fun s a => s.logger.timely a = true)
      (Logging.start LogFile.steady 4 3) (twoLines ++ .shutdown :: closing) s := guarded_run (run_eq_some rfl)
  have none_dropped : ∀ n, .dropped n ∉ s.logger.output := by
    have output : s.logger.output = [.lines [98, 10, 97, 10]] := rfl
    simp [output]
  exact ⟨rfl, fun bytes kept => (((files_hold_log LogFile.steady_succeeds reach).2.2 bytes kept).2.2 none_dropped).2 rfl⟩

theorem nothing_plain : newline ∉ ([] : List UInt8) ∧ newline ∉ ([] : List UInt8) :=
  ⟨List.not_mem_nil, List.not_mem_nil⟩

def unused : LogCache := ⟨0, [], 0, [], nothing_plain⟩

/-- What a logger in line `number` of `main.cc` hands over. -/
def hello (number : Int) : Line :=
  ((Logger.make unused Logger.firstSecond (ascii "main.cc") number (.level .INFO)).1.putAll [.string (ascii "hello")]).record

theorem hello_record (number : Int) : IsRecord (hello number) := by
  have room : ((Logger.make unused Logger.firstSecond (ascii "main.cc") 0 (.level .INFO)).1.putAll
      [.string (ascii "hello")]).Room := by
    unfold Logger.Room
    decide
  refine ⟨unused, Logger.firstSecond, ascii "main.cc", number, .level .INFO, [.string (ascii "hello")], room, trivial, ?_, ?_, rfl⟩
  · decide
  · intro v member
    rw [List.mem_singleton.mp member]
    exact (by decide : newline ∉ ascii "hello")

def Act.hello : Act → Bool
  | .call _ line => line = AsyncLogger.hello 1 ∨ line = AsyncLogger.hello 2
  | _ => true

/-- Two loggers; then the shutdown. -/
def hellos : List Act :=
  [.call 0 (hello 1), .call 1 (hello 2), .check 0, .check 1, .back, .back, .lock 1, .lock 0, .shutdown] ++ closing

theorem hellos_read_back :
    let s := after (Logging.step LogFile.steady) (Logging.start LogFile.steady 4 3) hellos
    ∀ bytes, s.output.Persisted bytes →
      (Lines.complete newline bytes).map (· ++ [newline]) = [hello 2, hello 1] := by
  intro s bytes kept
  have reach : RunWhile (Logging.step LogFile.steady) (fun s a => (s.logger.timely a && a.hello) = true)
      (Logging.start LogFile.steady 4 3) hellos s := guarded_run (run_eq_some rfl)
  have records : RunWhile (Logging.step LogFile.steady) (fun s a => s.logger.timely a = true ∧ a.Records)
      (Logging.start LogFile.steady 4 3) hellos s := by
    refine reach.weaken fun t a _ _ met => ?_
    obtain ⟨timely, greeting⟩ := (Bool.and_eq_true_iff.mp met)
    refine ⟨timely, ?_⟩
    cases a with
    | call thread line =>
      rcases of_decide_eq_true greeting with rfl | rfl
      · exact hello_record 1
      · exact hello_record 2
    | _ => trivial
  have none_dropped : ∀ n, .dropped n ∉ s.logger.output := by
    intro n member
    have output : s.logger.output = [.lines (hello 2 ++ hello 1)] := rfl
    rw [output] at member
    cases List.mem_singleton.mp member
  have history : s.logger.history = [hello 2, hello 1] := rfl
  have returned : s.logger.stopper = .returned := rfl
  rw [← history]
  exact (records_read_back LogFile.steady_succeeds records none_dropped kept).2 returned

end AsyncLogger

end CoroNet
