import CoroNet.General.Runs
import Mathlib.Data.List.Basic
import Mathlib.Data.Int.Basic

namespace CoroNet.TcpServer

open Transition

/-- Where a worker's accept loop is: about to read `running_`, suspended in an
accept, or gone. -/
inductive AcceptPlace
  | test
  | accept
  | gone

/-- Why a loop has ended: it has read `running_` as false, or an accept has
failed while `running_` had this value. -/
inductive AcceptExit
  | flag
  | result (res : Int) (running : Bool)

/-- The accept loop of one worker. `results` are the completions delivered to
it and `served` the descriptors for which it made a connection and spawned the
handler. -/
structure AcceptLoop where
  running : Bool := true
  place : AcceptPlace := .test
  submitted : Nat := 0
  results : List Int := []
  served : List Int := []
  exit : Option AcceptExit := none

namespace AcceptLoop

/-- The loop reads `running_`, an accept completes, another thread calls
`stop()`, or `start()` again. -/
inductive Act
  | test
  | complete (res : Int)
  | stop
  | start

def test (w : AcceptLoop) : AcceptLoop :=
  if w.running then { w with place := .accept, submitted := w.submitted + 1 }
  else { w with place := .gone, exit := some .flag }

def complete (w : AcceptLoop) (res : Int) : AcceptLoop :=
  let w := { w with results := w.results ++ [res] }
  if res < 0 then { w with place := .gone, exit := some (.result res w.running) }
  else { w with place := .test, served := w.served ++ [res] }

def step (w : AcceptLoop) : Act → Option AcceptLoop
  | .test => if w.place matches .test then some w.test else none
  | .complete res => if w.place matches .accept then some (w.complete res) else none
  | .stop => some { w with running := false }
  | .start => some { w with running := true }

def start : AcceptLoop := {}

/-- `-ECANCELED`, `-EBADF` and `-EINVAL`: the listening socket is gone or has
been shut down. -/
def permanent (res : Int) : Bool := res = -125 ∨ res = -9 ∨ res = -22

def AcceptExit.justified : AcceptExit → Prop
  | .flag => True
  | .result res running => running = false ∨ permanent res = true

/-- The loop has ended only for a good reason, has submitted another accept
after every result it went on from, and has served all that were accepted. -/
structure Keeps (w : AcceptLoop) : Prop where
  ends : w.place = .gone → ∃ exit, w.exit = some exit ∧ AcceptExit.justified exit
  submits : w.place = .accept → w.submitted = w.results.length + 1
  serves : w.served = w.results.filter fun res => 0 ≤ res

/-- While `running_` is true only the loss of the socket makes an accept fail. -/
def lasting (w : AcceptLoop) : Act → Bool
  | .complete res => 0 ≤ res || !w.running || permanent res
  | _ => true

variable {w w' : AcceptLoop} {a : Act} {acts : List Act}

/-- What a step can be. -/
inductive Move (w : AcceptLoop) : Act → AcceptLoop → Prop
  | submit : w.place = .test → w.running = true →
      Move w .test { w with place := .accept, submitted := w.submitted + 1 }
  | leave : w.place = .test → w.running = false → Move w .test { w with place := .gone, exit := some .flag }
  | serve {res : Int} : w.place = .accept → 0 ≤ res →
      Move w (.complete res) { w with place := .test, results := w.results ++ [res], served := w.served ++ [res] }
  | fail {res : Int} : w.place = .accept → res < 0 →
      Move w (.complete res)
        { w with place := .gone, results := w.results ++ [res], exit := some (.result res w.running) }
  | stop : Move w .stop { w with running := false }
  | start : Move w .start { w with running := true }

theorem step_move (move : step w a = some w') : Move w a w' := by
  cases a with
  | test =>
    obtain ⟨here, moved⟩ := Option.ite_none_right_eq_some.mp move
    cases Option.some.inj moved
    cases place : w.place <;> simp only [place, Bool.false_eq_true] at here
    unfold AcceptLoop.test
    split
    · next running => exact .submit place running
    · next stopped => exact .leave place (by simpa using stopped)
  | complete res =>
    obtain ⟨here, moved⟩ := Option.ite_none_right_eq_some.mp move
    cases Option.some.inj moved
    cases place : w.place <;> simp only [place, Bool.false_eq_true] at here
    unfold AcceptLoop.complete
    by_cases failed : res < 0
    · simpa only [if_pos failed] using Move.fail place failed
    · simpa only [if_neg failed] using Move.serve place (by omega)
  | stop =>
    cases Option.some.inj move
    exact .stop
  | start =>
    cases Option.some.inj move
    exact .start

/-- What holds in every run. -/
structure Books (w : AcceptLoop) : Prop where
  test : w.place = .test → w.submitted = w.results.length
  accept : w.place = .accept → w.submitted = w.results.length + 1
  serves : w.served = w.results.filter fun res => 0 ≤ res

theorem Move.books (move : Move w a w') (books : Books w) : Books w' := by
  cases move with
  | submit here => exact ⟨nofun, fun _ => congrArg (· + 1) (books.test here), books.serves⟩
  | leave => exact ⟨nofun, nofun, books.serves⟩
  | serve here success =>
    refine ⟨fun _ => ?_, nofun, ?_⟩
    · rw [List.length_append]
      exact books.accept here
    · rw [List.filter_append, ← books.serves, List.filter_singleton, decide_eq_true success, cond_true]
  | @fail res here failed =>
    refine ⟨nofun, nofun, ?_⟩
    rw [List.filter_append, ← books.serves, List.filter_singleton, decide_eq_false (by omega), cond_false,
      List.append_nil]
  | stop => exact ⟨books.test, books.accept, books.serves⟩
  | start => exact ⟨books.test, books.accept, books.serves⟩

theorem run_books (reach : Run step start acts w) : Books w :=
  reach.invariant ⟨fun _ => rfl, nofun, rfl⟩ fun books move => (step_move move).books books

/-- The loop has not ended, or for a good reason. -/
def Justified (w : AcceptLoop) : Prop :=
  w.place = .gone → ∃ exit, w.exit = some exit ∧ AcceptExit.justified exit

/-- The loop has ended at a transient error. -/
def Broken (w : AcceptLoop) : Prop :=
  w.place = .gone ∧ ∃ exit, w.exit = some exit ∧ ¬ AcceptExit.justified exit

theorem Move.justified (move : Move w a w') (justified : Justified w) (met : w.lasting a = true) : Justified w' := by
  cases move with
  | submit | serve => nofun
  | leave => exact fun _ => ⟨.flag, rfl, trivial⟩
  | @fail res _ failed =>
    refine fun _ => ⟨_, rfl, ?_⟩
    simp only [lasting, Bool.or_eq_true, decide_eq_true_eq, Bool.not_eq_true'] at met
    rcases met with (success | stopped) | lost
    · omega
    · exact Or.inl stopped
    · exact Or.inr lost
  | stop | start => exact justified

/-- The first step that is not lasting ends the loop for no good reason. -/
theorem Move.breaks (move : Move w a w') (unmet : ¬ w.lasting a = true) : Broken w' := by
  cases move with
  | fail _ failed =>
    refine ⟨rfl, _, rfl, ?_⟩
    simp only [lasting, Bool.or_eq_true, decide_eq_true_eq, Bool.not_eq_true', not_or] at unmet
    rintro (stopped | lost)
    · exact unmet.1.2 stopped
    · exact unmet.2 lost
  | serve _ success => exact absurd (by simp [lasting, success]) unmet
  | _ => exact absurd rfl unmet

theorem Move.broken (move : Move w a w') (broken : Broken w) : Broken w' := by
  cases move with
  | submit here | leave here | serve here | fail here =>
    rw [broken.1] at here
    cases here
  | stop => exact broken
  | start => exact broken

/-- The loop does what it should in exactly the runs in which an accept fails,
while the server runs, only with the loss of the socket. -/
theorem accept_loop_keeps_iff (reach : Run step start acts w) :
    Keeps w ↔ RunWhile step (fun w a => w.lasting a = true) start acts w := by
  constructor
  · intro keeps
    have decided : RunWhile step (fun w a => w.lasting a = true) start acts w ∨ Broken w :=
      reach.meets_or (fun _ move met => (step_move move).breaks met) fun _ move broken => (step_move move).broken broken
    refine decided.resolve_right fun broken => ?_
    obtain ⟨gone, exit, why, bad⟩ := broken
    obtain ⟨other, same, good⟩ := keeps.ends gone
    cases Option.some.inj (why.symm.trans same)
    exact bad good
  · intro good
    have books := run_books reach
    have justified : Justified w :=
      good.invariant (P := Justified) nofun fun justified met move => (step_move move).justified justified met
    exact ⟨justified, books.accept, books.serves⟩

/-- Two connections, then the socket is shut down by `stop()`. -/
def orderlyEnd : List Act := [.test, .complete 7, .test, .complete 8, .test, .stop, .complete (-22)]

theorem orderly_end_keeps : Keeps (after step start orderlyEnd) := by
  have reach : RunWhile step (fun w a => w.lasting a = true) start orderlyEnd (after step start orderlyEnd) :=
    guarded_run (run_eq_some rfl)
  exact (accept_loop_keeps_iff reach.run).mpr reach

/-- The process is out of descriptors for a moment. -/
def outOfDescriptors : List Act := [.test, .complete (-24)]

theorem transient_error_ends_loop : ∃ w, Run step start outOfDescriptors w ∧ w.running = true ∧ ¬ Keeps w := by
  refine ⟨after step start outOfDescriptors, run_eq_some rfl, rfl, fun keeps => ?_⟩
  obtain ⟨exit, why, good⟩ := keeps.ends rfl
  cases Option.some.inj why
  rcases good with stopped | lost
  · cases stopped
  · cases lost

end AcceptLoop

end CoroNet.TcpServer
