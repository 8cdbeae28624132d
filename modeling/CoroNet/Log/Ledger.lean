import CoroNet.Log.AsyncLogger
import Mathlib.Data.List.Forall2
import Mathlib.Data.List.TakeDrop

namespace CoroNet.AsyncLogger

open Function Transition

/-- Where the lines went, in the order of their appends and cut into the
buffers they were put in: the buffers handed to the `LogFile` (true) or erased
(false), the buffers the back-end has still to write, those it has erased
since it last went to work, `buffers_` and `current_`. -/
structure Ledger where
  settled : List (Bool × List Line) := []
  writing : List (List Line) := []
  erased : List (List Line) := []
  queued : List (List Line) := []
  current : List Line := []

def Ledger.lines (l : Ledger) : List Line :=
  (l.settled.map Prod.snd).flatten ++ l.writing.flatten ++ l.erased.flatten ++ l.queued.flatten ++ l.current

/-- The contents of the buffers handed over. -/
def handed (output : List Chunk) : List (List UInt8) :=
  output.filterMap fun
    | .lines data => some data
    | .dropped _ => none

/-- The numbers in the lines about erased buffers, together. -/
def reported (output : List Chunk) : Nat :=
  (output.map fun
    | .lines _ => 0
    | .dropped n => n).sum

/-- The buffer holds exactly these lines, whole and one after another. -/
def Holds (p : BufferPtr) (lines : List Line) : Prop := ∃ b, p = some b ∧ b.data = lines.flatten

/-- What the back-end has still to write in its present round. -/
def World.unwritten (w : World) : List BufferPtr :=
  match w.backend with
  | .limit => w.buffersToWrite
  | .writing rest | .flushing rest => rest
  | _ => []

/-- `buffers_`, except that the last round has already taken it over. -/
def World.queued (w : World) : List BufferPtr :=
  match w.backend with
  | .flushing _ => []
  | _ => w.buffers

/-- The ledger is a true account: every line is in one place, whole, and the
buffers that are gone are the ones the logger has reported. -/
structure Accounts (w : World) (l : Ledger) : Prop where
  history : w.history = l.lines
  written : handed w.output = (l.settled.filter Prod.fst).map fun c => c.2.flatten
  noted : reported w.output = (l.settled.filter fun c => !c.1).length + l.erased.length
  writing : List.Forall₂ Holds w.unwritten l.writing
  erased : (∀ rest, w.backend ≠ .writing rest) → l.erased = []
  queued : List.Forall₂ Holds w.queued l.queued
  current : w.current = none ∧ l.current = [] ∨ Holds w.current l.current

/-- Past the last locked section of the back-end. -/
def World.late (w : World) : Bool :=
  match w.backend with
  | .flushing _ | .exited => true
  | _ => false

def Spare (p : BufferPtr) : Prop := ∃ b, p = some b ∧ b.data = []

/-- The spare buffers of the back-end: both are there whenever it comes to
the swap, and what it took is enough to get both back. -/
def World.Spares (w : World) : Prop :=
  match w.backend with
  | .top | .lock | .waiting => Spare w.newBuf1 ∧ Spare w.newBuf2 ∧ w.buffersToWrite = []
  | .limit | .writing _ | .recycle =>
    w.newBuf1 = none ∧ (∀ p ∈ w.buffersToWrite, p ≠ none) ∧
      (Spare w.newBuf2 ∧ 1 ≤ w.buffersToWrite.length ∨ w.newBuf2 = none ∧ 2 ≤ w.buffersToWrite.length)
  | .final | .flushing _ | .exited => True

/-- The flags agree with where the back-end and the stopping thread are. -/
structure Flags (w : World) : Prop where
  ready : w.stopper = .ready → w.running = true ∧ w.started = true
  storing : w.stopper = .storing → w.running = true
  ending : w.backend = .final ∨ w.late = true → w.running = false
  joined : w.stopper = .joined ∨ w.stopper = .returned → w.backend = .exited

/-- A line that a buffer can take whole. -/
def Fits (line : Line) : Prop := line.length ≤ 4 * 1024 * 1024

structure Inv (w : World) : Prop where
  fault : w.fault = none
  flags : Flags w
  spares : w.Spares
  next : w.next ≠ none → Spare w.next
  taken : w.late = false → w.next = none → w.buffers ≠ []
  current : w.late = false → w.current ≠ none
  left : w.late = true → ∀ b, w.current = some b → b.data = []
  done : w.backend = .exited → w.buffers = []
  short : ∀ thread line, w.callers thread = .entered line ∨ w.callers thread = .passed line → Fits line
  account : ∃ l, Accounts w l

section

variable {w : World} {l : Ledger} {p : BufferPtr} {b : LargeBuffer} {lines : List Line} {line : Line}

theorem Holds.ne_none (holds : Holds p lines) : p ≠ none := by
  obtain ⟨b, rfl, _⟩ := holds
  exact Option.some_ne_none b

theorem Spare.holds (spare : Spare p) : Holds p [] := by
  obtain ⟨b, rfl, empty⟩ := spare
  exact ⟨b, rfl, empty⟩

/-- A line that fits is appended whole. -/
theorem Holds.append (holds : Holds (some b) lines) (room : line.length ≤ b.avail) :
    Holds (some (b.append line)) (lines ++ [line]) := by
  obtain ⟨b', same, data⟩ := holds
  cases Option.some.inj same
  exact ⟨_, rfl, by rw [FixedBuffer.append_data room, data, List.flatten_append, List.flatten_singleton]⟩

theorem forall₂_ne_none {buffers : List BufferPtr} {cells : List (List Line)}
    (holds : List.Forall₂ Holds buffers cells) : ∀ p ∈ buffers, p ≠ none := by
  induction holds with
  | nil => exact fun p member => absurd member List.not_mem_nil
  | cons head _ ih =>
    intro p member
    rcases List.mem_cons.mp member with rfl | member
    · exact head.ne_none
    · exact ih p member

theorem Accounts.queued_buffers (account : Accounts w l) (early : w.late = false) :
    List.Forall₂ Holds w.buffers l.queued := by
  have queued := account.queued
  unfold World.queued World.late at *
  cases control : w.backend <;> simp_all

/-- Before the last round the back-end has not exited. -/
theorem World.not_exited (early : w.late = false) : w.backend ≠ .exited := by
  intro out
  rw [World.late, out] at early
  exact absurd early.symm Bool.false_ne_true

/-- The back-end goes from one stage of the loop to another. -/
theorem Flags.goto {w' : World} (flags : Flags w) (early : w.late = false) (still : w'.late = false)
    (stopper : w'.stopper = w.stopper) (running : w'.running = w.running) (started : w'.started = w.started)
    (ending : w'.backend = .final → w.running = false) : Flags w' := by
  refine ⟨?_, ?_, ?_, ?_⟩
  · rw [stopper, running, started]
    exact flags.ready
  · rw [stopper, running]
    exact flags.storing
  · rw [running]
    rintro (final | late)
    · exact ending final
    · exact absurd (still.symm.trans late) Bool.false_ne_true
  · rw [stopper]
    exact fun stopped => absurd (flags.joined stopped) (World.not_exited early)

theorem Accounts.idle (account : Accounts w l) (nothing : w.unwritten = []) : l.writing = [] := by
  have writing := account.writing
  rw [nothing] at writing
  exact List.forall₂_nil_left_iff.mp writing

/-- Only the six members and the history it mentions matter to an account. -/
theorem Accounts.congr {w' : World} (account : Accounts w l) (history : w'.history = w.history)
    (output : w'.output = w.output) (backend : w'.backend = w.backend)
    (buffersToWrite : w'.buffersToWrite = w.buffersToWrite) (buffers : w'.buffers = w.buffers)
    (current : w'.current = w.current) : Accounts w' l := by
  cases w
  cases w'
  dsimp only at history output backend buffersToWrite buffers current
  subst history output backend buffersToWrite buffers current
  exact ⟨account.history, account.written, account.noted, account.writing, account.erased, account.queued,
    account.current⟩

end

/-- The locked section of `append`, before the last round of the back-end. -/
theorem World.append_eq {w : World} {b : LargeBuffer} (line : Line) (early : w.late = false)
    (here : w.current = some b) :
    (line.length < b.avail ∧ w.append line = .ok { w with current := some (b.append line) }) ∨
    (¬ line.length < b.avail ∧ w.append line = .ok { w with
      buffers := w.buffers ++ [w.current]
      next := none
      current := some ((w.next.getD {}).append line) }) := by
  unfold World.append
  rw [here]
  by_cases room : line.length < b.avail
  · exact Or.inl ⟨room, by simp only [if_pos room]⟩
  · refine Or.inr ⟨room, ?_⟩
    simp only [if_neg room]
    unfold World.late at early
    cases control : w.backend <;> cases w.next <;> simp_all

theorem Inv.lock {w : World} {thread : Nat} {line : Line} (inv : Inv w) (early : w.late = false)
    (passed : w.callers thread = .passed line) :
    ∃ next, w.append line = .ok next ∧ Inv { next with
      callers := update w.callers thread .idle
      history := w.history ++ [line]
      returned := w.returned ++ [line] } := by
  obtain ⟨b, here⟩ := Option.ne_none_iff_exists'.mp (inv.current early)
  obtain ⟨l, account⟩ := inv.account
  have fits := inv.short thread line (Or.inr passed)
  have short : ∀ other line', update w.callers thread .idle other = .entered line' ∨
      update w.callers thread .idle other = .passed line' → Fits line' := by
    intro other line' called
    by_cases same : other = thread
    · subst same
      simp at called
    · rw [update_of_ne same] at called
      exact inv.short other line' called
  have holds : Holds (some b) l.current := by
    rcases account.current with ⟨gone, _⟩ | holds
    · exact absurd (here.symm.trans gone) (Option.some_ne_none b)
    · rwa [here] at holds
  rcases World.append_eq line early here with ⟨room, same⟩ | ⟨_, same⟩
  · refine ⟨_, same, inv.fault, ?_, inv.spares, inv.next, inv.taken, ?_, ?_, inv.done, short, ?_⟩
    · exact ⟨inv.flags.ready, inv.flags.storing, inv.flags.ending, inv.flags.joined⟩
    · exact fun _ => Option.some_ne_none _
    · exact fun late => absurd (early.symm.trans late) Bool.false_ne_true
    · refine ⟨{ l with current := l.current ++ [line] }, ?_, account.written, account.noted, account.writing,
        account.erased, account.queued, Or.inr (holds.append (Nat.le_of_lt room))⟩
      simp [Ledger.lines, account.history]
  · have fresh : (w.next.getD {}).data = [] := by
      cases next : w.next with
      | none => rfl
      | some n =>
        obtain ⟨n', same, empty⟩ := inv.next (by rw [next]; exact Option.some_ne_none n)
        cases next.symm.trans same
        exact empty
    have room : line.length ≤ (w.next.getD {}).avail := by
      unfold Fits at fits
      rw [FixedBuffer.avail, fresh]
      exact fits
    have empty : Holds (some (w.next.getD {})) [] := ⟨_, rfl, fresh⟩
    have begun := empty.append room
    refine ⟨_, same, inv.fault, ?_, inv.spares, ?_, ?_, ?_, ?_, ?_, short, ?_⟩
    · exact ⟨inv.flags.ready, inv.flags.storing, inv.flags.ending, inv.flags.joined⟩
    · exact fun some_next => absurd rfl some_next
    · exact fun _ _ => by simp
    · exact fun _ => Option.some_ne_none _
    · exact fun late => absurd (early.symm.trans late) Bool.false_ne_true
    · exact fun out => absurd out (World.not_exited early)
    · have queued := List.rel_append (account.queued_buffers early) (List.Forall₂.cons holds .nil)
      refine ⟨{ l with queued := l.queued ++ [l.current], current := [line] }, ?_, account.written, account.noted,
        account.writing, account.erased, ?_, Or.inr begun⟩
      · simp [Ledger.lines, account.history]
      · rw [← here] at queued
        unfold World.queued
        unfold World.late at early
        cases control : w.backend <;> simp_all

end CoroNet.AsyncLogger
