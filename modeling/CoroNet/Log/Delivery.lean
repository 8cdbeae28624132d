import CoroNet.Log.Shutdown

namespace CoroNet.AsyncLogger

open Function Transition

theorem bind_ok {α β : Type} {x : Except Fault α} {f : α → Except Fault β} {r : β} (done : (x >>= f) = .ok r) :
    ∃ a, x = .ok a ∧ f a = .ok r := by
  cases x with
  | error => cases done
  | ok a => exact ⟨a, rfl, done⟩

/-- What the back-end leaves to the front-ends. -/
structure Frame (w next : World) : Prop where
  history : next.history = w.history
  running : next.running = w.running
  callers : next.callers = w.callers
  stderr : next.stderr = w.stderr
  returned : next.returned = w.returned

theorem World.recycle_frame {w next : World} (done : w.recycle = .ok next) :
    Frame w next ∧ next.output = w.output := by
  unfold World.recycle at done
  obtain ⟨first, _, done⟩ := bind_ok done
  obtain ⟨second, _, done⟩ := bind_ok done
  cases Except.ok.inj done
  exact ⟨⟨rfl, rfl, rfl, rfl, rfl⟩, rfl⟩

/-- The back-end appends no line and changes no flag, and it reports erased
buffers only over the limit. -/
theorem World.back_frame {w next : World} (done : w.back = .ok next) :
    Frame w next ∧ ((w.backend = .limit → w.buffersToWrite.length ≤ 25) → reported next.output = reported w.output) := by
  have written : ∀ data, reported (w.output ++ [.lines data]) = reported w.output := fun _ => reported_append _ _
  unfold World.back at done
  cases control : w.backend with
  | top | waiting | exited =>
    simp only [control, Except.ok.injEq] at done
    subst done
    exact ⟨⟨rfl, rfl, rfl, rfl, rfl⟩, fun _ => rfl⟩
  | lock =>
    simp only [control, Except.ok.injEq] at done
    subst done
    split <;> exact ⟨⟨rfl, rfl, rfl, rfl, rfl⟩, fun _ => rfl⟩
  | limit =>
    simp only [control, Except.ok.injEq] at done
    subst done
    unfold World.limit
    split
    · rename_i ended
      exact ⟨⟨rfl, rfl, rfl, rfl, rfl⟩, fun within => absurd (within rfl) (by omega)⟩
    · exact ⟨⟨rfl, rfl, rfl, rfl, rfl⟩, fun _ => rfl⟩
  | writing rest =>
    simp only [control] at done
    unfold World.write at done
    split at done
    · cases Except.ok.inj done
      exact ⟨⟨rfl, rfl, rfl, rfl, rfl⟩, fun _ => rfl⟩
    · cases done
    · cases Except.ok.inj done
      exact ⟨⟨rfl, rfl, rfl, rfl, rfl⟩, fun _ => written _⟩
  | recycle =>
    simp only [control] at done
    obtain ⟨frame, output⟩ := World.recycle_frame done
    exact ⟨frame, fun _ => by rw [output]⟩
  | final =>
    simp only [control, Except.ok.injEq] at done
    subst done
    unfold World.final
    split
    · exact ⟨⟨rfl, rfl, rfl, rfl, rfl⟩, fun _ => rfl⟩
    · split <;> exact ⟨⟨rfl, rfl, rfl, rfl, rfl⟩, fun _ => rfl⟩
  | flushing rest =>
    simp only [control, Except.ok.injEq] at done
    subst done
    unfold World.flush
    split
    · exact ⟨⟨rfl, rfl, rfl, rfl, rfl⟩, fun _ => rfl⟩
    · exact ⟨⟨rfl, rfl, rfl, rfl, rfl⟩, fun _ => rfl⟩
    · exact ⟨⟨rfl, rfl, rfl, rfl, rfl⟩, fun _ => written _⟩

theorem World.append_frame {w next : World} {line : Line} (done : w.append line = .ok next) :
    next.running = w.running ∧ next.output = w.output ∧ next.stderr = w.stderr := by
  unfold World.append at done
  split at done
  · cases done
  · split at done
    · cases Except.ok.inj done
      exact ⟨rfl, rfl, rfl⟩
    · split at done
      · cases done
      · cases Except.ok.inj done
        exact ⟨rfl, rfl, rfl⟩

/-- `running_` is never set again. -/
theorem Move.running {w w' : World} {a : Act} (move : Move w a w') (still : w'.running = true) : w.running = true := by
  cases move with
  | lock _ done => exact (World.append_frame done).1.symm.trans still
  | back _ done => exact (World.back_frame done).1.running.symm.trans still
  | shutdown | storing => exact absurd still Bool.false_ne_true
  | _ => exact still

/-- Where no thread is inside `append` and none calls it, nothing is appended. -/
theorem Move.quiet {w w' : World} {a : Act} (move : Move w a w') (idle : ∀ thread, w.callers thread = .idle)
    (no_call : ∀ thread line, a ≠ .call thread line) :
    (∀ thread, a ≠ .lock thread) ∧ w'.history = w.history ∧ ∀ thread, w'.callers thread = .idle := by
  cases move with
  | call => exact absurd rfl (no_call _ _)
  | refused here | passed here => cases here.symm.trans (idle _)
  | lock here | lockFault here => cases here.symm.trans (idle _)
  | back _ done =>
    obtain ⟨frame, _⟩ := World.back_frame done
    exact ⟨nofun, frame.history, fun thread => (congrFun frame.callers thread).trans (idle thread)⟩
  | _ => exact ⟨nofun, rfl, idle⟩

/-- A call that returns leaves its line with the back-end or on stderr. -/
theorem Move.returned {w w' : World} {a : Act} (move : Move w a w')
    (before : w.returned.Perm (w.history ++ w.stderr)) : w'.returned.Perm (w'.history ++ w'.stderr) := by
  cases move with
  | @refused _ line =>
    show (w.returned ++ [line]).Perm (w.history ++ (w.stderr ++ [line]))
    rw [← List.append_assoc]
    exact before.append_right [line]
  | @lock _ line next _ done =>
    obtain ⟨_, _, stderr⟩ := World.append_frame done
    show (w.returned ++ [line]).Perm ((w.history ++ [line]) ++ next.stderr)
    rw [stderr, List.append_assoc]
    refine (before.append_right [line]).trans ?_
    rw [List.append_assoc]
    exact List.perm_append_comm.append_left w.history
  | back _ done =>
    obtain ⟨frame, _⟩ := World.back_frame done
    rw [frame.returned, frame.history, frame.stderr]
    exact before
  | _ => exact before

/-- The line is shorter than a buffer. -/
def Act.below : Act → Bool
  | .call _ line => decide (line.length < 4 * 1024 * 1024)
  | _ => true

theorem World.timely_early {w : World} {a : Act} (below : a.below = true) (early : w.late = false) :
    w.timely a = true := by
  cases a with
  | call thread line =>
    have size : line.length < 4 * 1024 * 1024 := of_decide_eq_true below
    exact decide_eq_true (Nat.le_of_lt size)
  | lock thread => simp [World.timely, early]
  | _ => rfl

/-- While `running_` is true the back-end is in its loop, and every append is in time. -/
theorem run_timely {acts : List Act} {w : World} (reach : RunWhile step (fun _ a => a.below = true) start acts w)
    (running : w.running = true) : RunWhile step (fun w a => w.timely a = true) start acts w := by
  induction reach with
  | start => exact .start
  | next _ below move ih =>
    have before := (step_move move).running running
    have timely := ih before
    refine .next timely (World.timely_early below ?_) move
    refine Bool.eq_false_iff.mpr fun late => ?_
    exact absurd (((run_inv timely).flags.ending (Or.inr late)).symm.trans before) Bool.false_ne_true

/-- With no append running and none called, whatever happens is in time and appends nothing. -/
theorem run_quiet {acts : List Act} {w w' : World} (reach : Run step w acts w')
    (idle : ∀ thread, w.callers thread = .idle) (no_call : ∀ thread line, .call thread line ∉ acts) :
    RunWhile step (fun w a => w.timely a = true) w acts w' ∧ w'.history = w.history ∧
      ∀ thread, w'.callers thread = .idle := by
  induction reach with
  | start => exact ⟨.start, rfl, idle⟩
  | @next acts t u a _ _ move ih =>
    obtain ⟨timely, history, idle'⟩ := ih fun thread line member =>
      no_call thread line (List.mem_append_left _ member)
    have not_call : ∀ thread line, a ≠ .call thread line := by
      rintro thread line rfl
      exact no_call thread line (List.mem_append_right _ (List.mem_singleton_self _))
    obtain ⟨not_lock, same, idle''⟩ := (step_move move).quiet idle' not_call
    refine ⟨.next timely ?_ move, same.trans history, idle''⟩
    cases a with
    | call thread line => exact absurd rfl (not_call thread line)
    | lock thread => exact absurd rfl (not_lock thread)
    | _ => rfl

/-- Nothing is left to write; a line of no bytes leaves nothing to write. -/
def Ledger.Closed (l : Ledger) : Prop :=
  l.writing = [] ∧ l.erased = [] ∧ l.queued = [] ∧ ∀ line ∈ l.current, line = []

/-- Once the back-end has left, every line is settled. -/
theorem Inv.closed {w : World} (inv : Inv w) (out : w.backend = .exited) : ∃ l, Accounts w l ∧ l.Closed := by
  obtain ⟨l, account⟩ := inv.account
  have late : w.late = true := by rw [World.late, out]
  have nothing : w.unwritten = [] := by rw [World.unwritten, out]
  have queued := account.queued
  rw [World.queued, out, inv.done out] at queued
  refine ⟨l, account, account.idle nothing, ?_, List.forall₂_nil_left_iff.mp queued, ?_⟩
  · exact account.erased fun rest at_write => by cases out.symm.trans at_write
  · rcases account.current with ⟨_, none_left⟩ | ⟨b, here, data⟩
    · rw [none_left]
      exact fun line member => absurd member List.not_mem_nil
    · have empty := inv.left late b here
      exact List.flatten_eq_nil_iff.mp (data.symm.trans empty)

/-- Where no erased buffer has been reported, every buffer that is gone was handed over. -/
theorem Accounts.all_handed {w : World} {l : Ledger} (account : Accounts w l) (none_dropped : reported w.output = 0) :
    ∀ c ∈ l.settled, c.1 = true := by
  have count := account.noted
  have none_lost : l.settled.filter (fun c => !c.1) = [] := List.length_eq_zero_iff.mp (by omega)
  intro c member
  have kept := List.filter_eq_nil_iff.mp none_lost c member
  simpa using kept

/-- The logger loses and reorders nothing it does not report. While it runs,
the lines in lock order are accounted for one by one; a `shutdown` with no
append on its way returns with every one of them settled, and handed to the
`LogFile` unless buffers were reported as erased. -/
theorem lines_accounted {acts : List Act} {w : World} (reach : RunWhile step (fun _ a => a.below = true) start acts w)
    (running : w.running = true) :
    w.fault = none ∧ (∃ l, Accounts w l) ∧
      ∀ w' more w'', (∀ thread, w.callers thread = .idle) → step w .shutdown = some w' →
        Run step w' more w'' → (∀ thread line, .call thread line ∉ more) → w''.stopper = .returned →
        w''.fault = none ∧ w''.history = w.history ∧
          ∃ l, Accounts w'' l ∧ l.Closed ∧ (reported w''.output = 0 → ∀ c ∈ l.settled, c.1 = true) := by
  have inv := run_inv (run_timely reach running)
  refine ⟨inv.fault, inv.account, fun w' more w'' idle move later no_call returned => ?_⟩
  have inv' := step_inv inv rfl move
  obtain ⟨_, history, idle'⟩ := (step_move move).quiet idle nofun
  obtain ⟨timely, history', _⟩ := run_quiet later idle' no_call
  have inv'' := timely.invariant inv' fun inv timely move => step_inv inv timely move
  obtain ⟨l, account, closed⟩ := inv''.closed (inv''.flags.joined (Or.inr returned))
  exact ⟨inv''.fault, history'.trans history, l, account, closed, account.all_handed⟩

/-- Two threads append a line each; then the logger is shut down. -/
def twoLines : List Act :=
  [.call 0 [97, 10], .call 1 [98, 10], .check 0, .check 1, .back, .back, .lock 1, .lock 0]

def closing : List Act := [.back, .back, .back, .back, .back, .back, .back, .back, .stop, .stop, .stop]

theorem two_lines_accounted : ∃ w'', Run step (after step start (twoLines ++ [.shutdown])) closing w'' ∧
    w''.history = (after step start twoLines).history ∧ ∃ l, Accounts w'' l ∧ l.Closed ∧ ∀ c ∈ l.settled, c.1 = true := by
  have reach : RunWhile step (fun _ a => a.below = true) start twoLines (after step start twoLines) :=
    guarded_run (run_eq_some rfl)
  have idle : ∀ thread, (after step start twoLines).callers thread = .idle := by
    rintro (_ | _ | thread) <;> rfl
  have later : Run step (after step start (twoLines ++ [.shutdown])) closing
      (after step (after step start (twoLines ++ [.shutdown])) closing) := run_after (by decide)
  obtain ⟨_, history, l, account, closed, handed⟩ :=
    (lines_accounted reach rfl).2.2 _ closing _ idle rfl later (by simp [closing]) rfl
  exact ⟨_, later, history, l, account, closed, handed rfl⟩

/-- The step is in time, and the back-end is not over its limit. -/
def World.prompt (w : World) (a : Act) : Bool :=
  w.timely a && match a, w.backend with
    | .back, .limit => decide (w.buffersToWrite.length ≤ 25)
    | _, _ => true

/-- Every line whose append has returned, a line of no bytes apart, has been
handed to the `LogFile` or is on stderr, whole and once. -/
def Delivered (w : World) : Prop :=
  ∃ cells : List (List Line), ∃ blank : List Line, (∀ line ∈ blank, line = []) ∧
    handed w.output = cells.map List.flatten ∧ w.returned.Perm (cells.flatten ++ blank ++ w.stderr)

theorem Move.reported {w w' : World} {a : Act} (move : Move w a w') (prompt : w.prompt a = true) :
    reported w'.output = reported w.output := by
  cases move with
  | lock _ done => exact congrArg _ (World.append_frame done).2.1
  | back _ done =>
    refine (World.back_frame done).2 fun at_limit => ?_
    have within := (Bool.and_eq_true_iff.mp prompt).2
    rw [at_limit] at within
    exact of_decide_eq_true within
  | _ => rfl

theorem run_returned {acts : List Act} {w : World} (reach : Run step start acts w) :
    w.returned.Perm (w.history ++ w.stderr) :=
  reach.invariant .nil fun before move => (step_move move).returned before

theorem Accounts.delivered {w : World} {l : Ledger} (account : Accounts w l) (closed : l.Closed)
    (all_handed : ∀ c ∈ l.settled, c.1 = true) (returned : w.returned.Perm (w.history ++ w.stderr)) : Delivered w := by
  obtain ⟨writing, erased, queued, blank⟩ := closed
  refine ⟨l.settled.map Prod.snd, l.current, blank, ?_, ?_⟩
  · rw [account.written, List.filter_eq_self.mpr all_handed, List.map_map]
    rfl
  · have history := account.history
    simp only [Ledger.lines, writing, erased, queued, List.flatten_nil, List.append_nil] at history
    rwa [history] at returned

/-- As long as no append takes the lock after the last locked section of the
back-end, lines fit and the limit is kept: `current_` is there for every
append, and when `shutdown` or `flush_and_stop` returns, every line whose
append has returned is delivered. -/
theorem returned_lines_delivered {acts : List Act} {w : World}
    (reach : RunWhile step (fun w a => w.prompt a = true) start acts w) :
    w.fault = none ∧ (∀ thread, w.prompt (.lock thread) = true → w.current ≠ none) ∧
      (w.stopper = .returned → Delivered w) := by
  have inv := run_inv (reach.weaken fun w a _ _ prompt => (Bool.and_eq_true_iff.mp prompt).1)
  have none_reported : reported w.output = 0 :=
    reach.invariant (P := fun w => reported w.output = 0) rfl fun before prompt move =>
      ((step_move move).reported prompt).trans before
  refine ⟨inv.fault, fun thread prompt => ?_, fun returned => ?_⟩
  · have early : w.late = false := by simpa [World.prompt, World.timely] using prompt
    exact inv.current early
  · obtain ⟨l, account, closed⟩ := inv.closed (inv.flags.joined (Or.inr returned))
    exact account.delivered closed (account.all_handed none_reported) (run_returned reach.run)

/-- One append is overtaken by the shutdown but not by the last round, another
comes after it. -/
def inTime : List Act :=
  [.call 0 [97, 10], .check 0, .shutdown, .back, .lock 0, .back, .back, .back, .stop, .stop, .stop,
    .call 1 [98, 10], .check 1]

theorem in_time_delivered : Delivered (after step start inTime) := by
  have reach : RunWhile step (fun w a => w.prompt a = true) start inTime (after step start inTime) :=
    guarded_run (run_eq_some rfl)
  exact (returned_lines_delivered reach).2.2 rfl

/-- An append has passed the test of the flags when the back-end moves
`current_` away in its last locked section. -/
def nullAppend : List Act :=
  [.call 0 [97, 10], .check 0, .lock 0, .call 1 [98, 10], .check 1, .shutdown, .back, .back, .lock 1]

/-- The same with nothing in `current_`, which then stays. -/
def lostAppend : List Act :=
  [.call 1 [98, 10], .check 1, .shutdown, .back, .back, .back, .lock 1, .stop, .stop, .stop]

/-- The late append dereferences a null `current_`, or its line is lost. -/
theorem late_append_fails :
    (∃ w, Run step start nullAppend w ∧ w.fault = some .nullBuffer) ∧
      ∃ w, Run step start lostAppend w ∧ w.stopper = .returned ∧ (∀ thread, w.callers thread = .idle) ∧
        w.returned = [[98, 10]] ∧ w.output = [] ∧ ¬ Delivered w := by
  refine ⟨⟨after step start nullAppend, run_eq_some rfl, rfl⟩,
    after step start lostAppend, run_eq_some rfl, rfl, ?_, rfl, rfl, ?_⟩
  · rintro (_ | _ | thread) <;> rfl
  · rintro ⟨cells, blank, empty, output, returned⟩
    have none_handed : cells.map List.flatten = [] := output.symm
    have member : [98, 10] ∈ cells.flatten ++ blank ++ [] := returned.subset (List.mem_singleton_self _)
    rw [List.map_eq_nil_iff.mp none_handed] at member
    have line := empty [98, 10] (by simpa using member)
    cases line

end CoroNet.AsyncLogger
