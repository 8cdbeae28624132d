import CoroNet.Log.Backend

namespace CoroNet.AsyncLogger

open Function Transition

/-- The step keeps to the buffers: a line that is appended fits into one, and
no locked section of `append` comes after the last one of the back-end. -/
def World.timely (w : World) : Act → Bool
  | .call _ line => decide (line.length ≤ 4 * 1024 * 1024)
  | .lock _ => !w.late
  | _ => true

/-- What a step can be. -/
inductive Move (w : World) : Act → World → Prop
  | call {thread : Nat} {line : Line} : w.callers thread = .idle →
      Move w (.call thread line) { w with callers := update w.callers thread (.entered line) }
  | refused {thread : Nat} {line : Line} : w.callers thread = .entered line →
      Move w (.check thread) { w with
        callers := update w.callers thread .idle
        stderr := w.stderr ++ [line]
        returned := w.returned ++ [line] }
  | passed {thread : Nat} {line : Line} : w.callers thread = .entered line →
      Move w (.check thread) { w with callers := update w.callers thread (.passed line) }
  | lock {thread : Nat} {line : Line} {next : World} : w.callers thread = .passed line →
      w.append line = .ok next →
      Move w (.lock thread) { next with
        callers := update w.callers thread .idle
        history := w.history ++ [line]
        returned := w.returned ++ [line] }
  | lockFault {thread : Nat} {line : Line} {f : Fault} : w.callers thread = .passed line →
      w.append line = .error f → Move w (.lock thread) { w with fault := some f }
  | back {next : World} : w.backend ≠ .exited → w.back = .ok next → Move w .back next
  | backFault {f : Fault} : w.backend ≠ .exited → w.back = .error f → Move w .back { w with fault := some f }
  | shutdown : w.stopper = .ready →
      Move w .shutdown { w with running := false, stopper := if w.running then .notifying else .returned }
  | flushAndStop : w.stopper = .ready →
      Move w .flushAndStop { w with stopper := if w.started then .storing else .returned }
  | storing : w.stopper = .storing → Move w .stop { w with running := false, stopper := .notifying }
  | notifying : w.stopper = .notifying → Move w .stop { w with stopper := .joining }
  | joining : w.stopper = .joining → w.backend = .exited → Move w .stop { w with stopper := .joined }
  | joined : w.stopper = .joined → Move w .stop { w with started := false, stopper := .returned }

theorem step_move {w w' : World} {a : Act} (move : step w a = some w') : Move w a w' := by
  unfold step at move
  by_cases broken : w.fault.isSome = true
  · rw [if_pos broken] at move
    cases move
  rw [if_neg broken] at move
  cases a with
  | call thread line =>
    cases here : w.callers thread <;> simp only [here, reduceCtorEq, Option.some.injEq] at move
    subst move
    exact .call here
  | check thread =>
    cases here : w.callers thread <;> simp only [here, reduceCtorEq] at move
    split at move
    · cases Option.some.inj move
      exact .refused here
    · cases Option.some.inj move
      exact .passed here
  | lock thread =>
    cases here : w.callers thread <;> simp only [here, reduceCtorEq, Option.some.injEq] at move
    rename_i line
    cases result : w.append line with
    | ok next =>
      rw [result] at move
      subst move
      exact .lock here result
    | error f =>
      rw [result] at move
      subst move
      exact .lockFault here result
  | back =>
    have inside : w.backend ≠ .exited := by
      intro out
      simp [out] at move
    have moved : w' = w.outcome w.back := by
      cases control : w.backend <;> simp_all
    cases result : w.back with
    | ok next =>
      rw [moved, result]
      exact .back inside result
    | error f =>
      rw [moved, result]
      exact .backFault inside result
  | shutdown =>
    cases here : w.stopper <;> simp only [here, reduceCtorEq, Option.some.injEq] at move
    subst move
    exact .shutdown here
  | flushAndStop =>
    cases here : w.stopper <;> simp only [here, reduceCtorEq, Option.some.injEq] at move
    subst move
    exact .flushAndStop here
  | stop =>
    have move : w.stop = some w' := move
    unfold World.stop at move
    cases here : w.stopper <;> simp only [here, reduceCtorEq, Option.some.injEq] at move
    · subst move
      exact .storing here
    · subst move
      exact .notifying here
    · split at move
      · rename_i out
        cases Option.some.inj move
        exact .joining here out
      · cases move
    · subst move
      exact .joined here

theorem Inv.start : Inv start where
  fault := rfl
  flags := ⟨fun _ => ⟨rfl, rfl⟩, fun _ => rfl, by simp [AsyncLogger.start, World.late], by simp [AsyncLogger.start]⟩
  spares := ⟨⟨{}, rfl, rfl⟩, ⟨{}, rfl, rfl⟩, rfl⟩
  next := fun _ => ⟨{}, rfl, rfl⟩
  taken := fun _ gone => absurd gone (Option.some_ne_none _)
  current := fun _ => Option.some_ne_none _
  left := fun late => absurd late Bool.false_ne_true
  done := fun out => Backend.noConfusion out
  short := by simp [AsyncLogger.start]
  account := ⟨{}, rfl, rfl, rfl, .nil, fun _ => rfl, .nil, Or.inr ⟨{}, rfl, rfl⟩⟩

/-- The buffers do not depend on the flags, the callers and the lines on stderr. -/
theorem Inv.control {w : World} (inv : Inv w) {callers : Nat → Caller} {stopper : Stopper} {started running : Bool}
    {stderr returned : List Line}
    (flags : Flags { w with
      callers := callers, stopper := stopper, started := started, running := running, stderr := stderr
      returned := returned })
    (short : ∀ thread line, callers thread = .entered line ∨ callers thread = .passed line → Fits line) :
    Inv { w with
      callers := callers, stopper := stopper, started := started, running := running, stderr := stderr
      returned := returned } := by
  obtain ⟨l, account⟩ := inv.account
  exact ⟨inv.fault, flags, inv.spares, inv.next, inv.taken, inv.current, inv.left, inv.done, short, l,
    account.congr rfl rfl rfl rfl rfl rfl⟩

/-- A new call, or an end of one, adds no line in flight but its own. -/
theorem Inv.callers {w : World} (inv : Inv w) {thread : Nat} {caller : Caller}
    (fits : ∀ line, caller = .entered line ∨ caller = .passed line → Fits line) :
    ∀ other line, update w.callers thread caller other = .entered line ∨
      update w.callers thread caller other = .passed line → Fits line := by
  intro other line called
  by_cases same : other = thread
  · subst same
    rw [update_self] at called
    exact fits line called
  · rw [update_of_ne same] at called
    exact inv.short other line called

theorem Inv.back {w : World} (inv : Inv w) (inside : w.backend ≠ .exited) : ∃ next, w.back = .ok next ∧ Inv next := by
  have spares := inv.spares
  cases control : w.backend with
  | top =>
    have early : w.late = false := by rw [World.late, control]
    have nothing : w.unwritten = [] := by rw [World.unwritten, control]
    rw [World.Spares, control] at spares
    refine ⟨_, by rw [World.back, control], ?_⟩
    by_cases running : w.running = true
    · rw [if_pos running]
      exact inv.goto early nothing spares rfl rfl (Backend.noConfusion ·)
    · rw [if_neg running]
      exact inv.goto early nothing trivial rfl rfl fun _ => Bool.eq_false_iff.mpr running
  | lock =>
    have early : w.late = false := by rw [World.late, control]
    have nothing : w.unwritten = [] := by rw [World.unwritten, control]
    have swapped := inv.swap (Or.inl control)
    rw [World.Spares, control] at spares
    refine ⟨_, by rw [World.back, control], ?_⟩
    by_cases none_queued : w.buffers.isEmpty = true
    · rw [if_pos none_queued]
      exact inv.goto early nothing spares rfl rfl (Backend.noConfusion ·)
    · rw [if_neg none_queued]
      exact swapped
  | waiting => exact ⟨_, by rw [World.back, control], inv.swap (Or.inr control)⟩
  | limit => exact ⟨_, by rw [World.back, control], inv.limit control⟩
  | writing rest =>
    obtain ⟨next, done, inv'⟩ := inv.write control
    exact ⟨next, by simp only [World.back, control, done], inv'⟩
  | recycle =>
    obtain ⟨next, done, inv'⟩ := inv.recycle control
    exact ⟨next, by simp only [World.back, control, done], inv'⟩
  | final => exact ⟨_, by rw [World.back, control], inv.final control⟩
  | flushing rest => exact ⟨_, by rw [World.back, control], inv.flush control⟩
  | exited => exact absurd control inside

/-- The stopping thread goes on to a point at which nothing is asked of the flags. -/
theorem Flags.advance {w : World} (flags : Flags w) {stopper : Stopper} {running : Bool}
    (past : stopper = .notifying ∨ stopper = .joining) (off : running = true → w.running = true) :
    Flags { w with stopper := stopper, running := running } := by
  refine ⟨?_, ?_, fun ending => ?_, ?_⟩
  · rintro rfl
    rcases past with other | other <;> cases other
  · rintro rfl
    rcases past with other | other <;> cases other
  · exact Bool.eq_false_iff.mpr fun still => Bool.eq_false_iff.mp (flags.ending ending) (off still)
  · rintro (rfl | rfl) <;> rcases past with other | other <;> cases other

theorem step_inv {w w' : World} {a : Act} (inv : Inv w) (timely : w.timely a = true) (move : step w a = some w') :
    Inv w' := by
  have flags := inv.flags
  have move := step_move move
  cases move with
  | call =>
    refine inv.control ⟨flags.ready, flags.storing, flags.ending, flags.joined⟩ (inv.callers ?_)
    rintro line' (same | other)
    · cases same
      have fits : _ ≤ 4 * 1024 * 1024 := of_decide_eq_true timely
      exact fits
    · cases other
  | refused =>
    refine inv.control ⟨flags.ready, flags.storing, flags.ending, flags.joined⟩ (inv.callers ?_)
    rintro line' (other | other) <;> cases other
  | passed here =>
    refine inv.control ⟨flags.ready, flags.storing, flags.ending, flags.joined⟩ (inv.callers ?_)
    rintro line' (other | same)
    · cases other
    · cases same
      exact inv.short _ _ (Or.inl here)
  | lock here done =>
    have early : w.late = false := by simpa [World.timely] using timely
    obtain ⟨next, done', inv'⟩ := inv.lock early here
    cases done.symm.trans done'
    exact inv'
  | lockFault here failed =>
    have early : w.late = false := by simpa [World.timely] using timely
    obtain ⟨next, done, _⟩ := inv.lock early here
    cases failed.symm.trans done
  | back inside done =>
    obtain ⟨next, done', inv'⟩ := inv.back inside
    cases done.symm.trans done'
    exact inv'
  | backFault inside failed =>
    obtain ⟨next, done, _⟩ := inv.back inside
    cases failed.symm.trans done
  | shutdown here =>
    rw [(flags.ready here).1, if_pos rfl]
    exact inv.control (flags.advance (Or.inl rfl) (absurd · Bool.false_ne_true)) inv.short
  | flushAndStop here =>
    have ready := flags.ready here
    rw [ready.2, if_pos rfl]
    refine inv.control ⟨nofun, fun _ => ready.1, flags.ending, ?_⟩ inv.short
    rintro (other | other) <;> cases other
  | storing => exact inv.control (flags.advance (Or.inl rfl) (absurd · Bool.false_ne_true)) inv.short
  | notifying => exact inv.control (flags.advance (Or.inr rfl) id) inv.short
  | joining _ out => exact inv.control ⟨nofun, nofun, flags.ending, fun _ => out⟩ inv.short
  | joined here =>
    exact inv.control ⟨nofun, nofun, flags.ending, fun _ => flags.joined (Or.inl here)⟩ inv.short

theorem run_inv {acts : List Act} {w : World}
    (reach : RunWhile step (fun w a => w.timely a = true) start acts w) : Inv w :=
  reach.invariant .start fun inv timely move => step_inv inv timely move

end CoroNet.AsyncLogger
