import CoroNet.Scheduler.Tokens

namespace CoroNet.Scheduler

open Function Transition

variable {w w' : World} {a : Act} {watcher : UserData}

/-- What the start of a coroutine consists of. -/
def Act.starts : Act → Bool
  | .spawn _ | .suspend _ | .park | .finish => true
  | _ => false

/-- The steps of a scheduler on which coroutines may also be started before
`run()`. They do then what they do on the worker, and `run()` is entered when
the call of `spawn` has come back. -/
def launchStep (w : World) : Act → Option World
  | .next => if w.pc = .created ∧ w.stack ≠ [] then none else step w .next
  | a =>
    if w.pc = .created ∧ a.starts = true then
      (step { w with pc := .inCoro } a).map fun next => { next with pc := .created }
    else step w a

/-- The next step asks for an SQE for a watcher: at the start, and after the
completion of its read, a good one of the timerfd after the callbacks. -/
def World.arms (w : World) : Act → Bool
  | .next =>
    match w.pc with
    | .cleared | .watching => true
    | .batch i n => decide (i < n) && (w.ring.cq[i]?).any fun cqe =>
        decide (cqe.userData = .eventfd ∨ cqe.userData = .timerfd ∧ cqe.res < 0)
    | _ => false
  | .ret =>
    match w.pc with
    | .inTimer .. => w.stack.isEmpty
    | _ => false
  | _ => false

/-- A watcher that asks for an SQE gets one. -/
def armed (w : World) (a : Act) : Bool := !w.arms a || decide (w.ring.pending < w.ring.entries)

/-- A read of the watcher is queued, in flight, or completed and not processed. -/
def World.Attends (w : World) (watcher : UserData) : Prop :=
  (∃ sqe ∈ w.ring.queued ++ w.ring.unconsumed ++ w.ring.inflight, sqe.userData = watcher) ∨
    ∃ cqe ∈ w.ring.cq, cqe.userData = watcher

theorem Rearms.arms {pc : Pc} (rearms : Rearms w a watcher pc) : w.arms a = true := by
  cases rearms with
  | watch here | startTimers here => simp [World.arms, here]
  | eventfd here less at_i data => simp [World.arms, here, less, at_i, data]
  | timerError here less at_i data bad => simp [World.arms, here, less, at_i, data, bad]
  | timersRun empty here => simp [World.arms, here, empty]

/-- A step that asks for an SQE gets it if there is room, and goes on without it if there is none. -/
theorem Move.arms (move : Move w a w') (asks : w.arms a = true) :
    ∃ watcher pc, Rearms w a watcher pc ∧
      (w.ring.pending < w.ring.entries → w' = { w with ring := w.ring.push ⟨.read 8, watcher⟩, pc := pc }) ∧
      (w.ring.entries ≤ w.ring.pending → w' = { w with pc := pc }) := by
  cases move with
  | rearm rearms room => exact ⟨_, _, rearms, fun _ => rfl, fun full => by omega⟩
  | rearmFull rearms full => exact ⟨_, _, rearms, fun room => by omega, fun _ => rfl⟩
  | goto goto => cases goto <;> simp [World.arms, *] at asks
  | advance here ended =>
    simp [World.arms, here] at asks
    omega
  | timers here _ at_i data good =>
    simp [World.arms, here, at_i, data] at asks
    omega
  | _ => simp [World.arms, *] at asks

/-- The watcher has been armed for the first time, or should have been. -/
def Pc.begun : Pc → UserData → Bool
  | .created, _ | .entered, _ | .cleared, _ => false
  | .watching, watcher => decide (watcher = .eventfd)
  | _, _ => true

/-- The completion of the timerfd whose callbacks run. -/
def Pc.held : Pc → UserData → Nat
  | .inTimer .., .timerfd => 1
  | _, _ => 0

/-- The reads of a watcher in the ring, and the one it is about to replace. -/
def World.tokens (w : World) (watcher : UserData) : Nat := w.flying watcher + w.pc.held watcher

/-- The watcher has its read. -/
def World.Alive (w : World) (watcher : UserData) : Prop := w.tokens watcher = if w.pc.begun watcher then 1 else 0

/-- The watcher has been started and has no read. -/
def World.Lost (w : World) (watcher : UserData) : Prop := w.pc.begun watcher = true ∧ w.tokens watcher = 0

inductive UserData.Watcher : UserData → Prop
  | eventfd : Watcher .eventfd
  | timerfd : Watcher .timerfd

/-- Some watcher has no read. -/
def World.Deserted (w : World) : Prop := ∃ watcher : UserData, watcher.Watcher ∧ w.Lost watcher

theorem UserData.Watcher.of_awaiter (is : watcher.Watcher) (b : Nat) : UserData.awaiter b ≠ watcher := by
  cases is <;> simp

theorem UserData.Watcher.of_null (is : watcher.Watcher) : UserData.null ≠ watcher := by
  cases is <;> simp

theorem World.tokens_congr (flying : w'.flying watcher = w.flying watcher)
    (held : w'.pc.held watcher = w.pc.held watcher) : w'.tokens watcher = w.tokens watcher := by
  simp only [World.tokens, flying, held]

theorem Rearms.isWatcher {pc : Pc} (rearms : Rearms w a watcher pc) : watcher.Watcher := by
  cases rearms with
  | watch | eventfd => exact .eventfd
  | startTimers | timerError | timersRun => exact .timerfd

/-- To ask for an SQE takes the read of the watcher, if it has been started. -/
theorem Rearms.taken {pc : Pc} (rearms : Rearms w a watcher pc) : pc.begun watcher = true ∧
    w.tokens watcher = World.tokens { w with pc := pc } watcher + if w.pc.begun watcher then 1 else 0 := by
  cases rearms with
  | watch here | startTimers here => simp [World.tokens, World.flying, here, Pc.begun, Pc.held, Pc.unprocessed]
  | @eventfd i n cqe here _ at_i data =>
    have taken := World.flying_take .eventfd here at_i
    refine ⟨rfl, ?_⟩
    simp only [World.tokens, taken, here, data, Pc.begun, Pc.held]
    rfl
  | timerError here _ at_i data =>
    have taken := World.flying_take .timerfd here at_i
    refine ⟨rfl, ?_⟩
    simp only [World.tokens, taken, here, data, Pc.begun, Pc.held]
    rfl
  | timersRun _ here => simp [World.tokens, World.flying, here, Pc.begun, Pc.held, Pc.unprocessed]

/-- It leaves the other watcher alone. -/
theorem Rearms.other {pc : Pc} {other : UserData} (rearms : Rearms w a watcher pc) (is : other.Watcher)
    (apart : other ≠ watcher) : pc.begun other = w.pc.begun other ∧
    World.tokens { w with pc := pc } other = w.tokens other := by
  cases rearms with
  | watch here =>
    cases is with
    | eventfd => exact absurd rfl apart
    | timerfd => simp [World.tokens, World.flying, here, Pc.begun, Pc.held, Pc.unprocessed]
  | startTimers here | timersRun _ here =>
    cases is with
    | eventfd => simp [World.tokens, World.flying, here, Pc.begun, Pc.held, Pc.unprocessed]
    | timerfd => exact absurd rfl apart
  | eventfd here _ at_i data | timerError here _ at_i data =>
    have taken := World.flying_take_other here at_i (data ▸ apart.symm)
    exact ⟨by rw [here]; rfl, World.tokens_congr taken (by rw [here]; rfl)⟩

theorem World.tokens_push (w : World) (sqe : Sqe) (watcher : UserData) :
    World.tokens { w with ring := w.ring.push sqe } watcher =
      w.tokens watcher + if sqe.userData = watcher then 1 else 0 := by
  have pushed : World.flying { w with ring := w.ring.push sqe } watcher = _ := World.flying_push (w := w) sqe rfl rfl
  simp only [World.tokens, pushed]
  omega

theorem World.tokens_submit (w : World) (watcher : UserData) :
    World.tokens { w with ring := w.ring.submit } watcher = w.tokens watcher := by
  refine World.tokens_congr (World.flying_congr Ring.tagged_submit ?_) rfl
  exact congrArg (w.pc.unprocessed ·) Ring.cq_submit

theorem Goto.keeps_tokens {pc : Pc} (goto : Goto w a pc) :
    pc.begun watcher = w.pc.begun watcher ∧ World.tokens { w with pc := pc } watcher = w.tokens watcher := by
  have flying : World.flying { w with pc := pc } watcher = w.flying watcher := goto.flying
  refine ⟨?_, World.tokens_congr flying ?_⟩
  · cases goto <;> simp only [Pc.begun, *]
  · cases goto <;> simp only [Pc.held, *]

/-- Any step but the request of a watcher leaves it its reads. -/
theorem Move.keeps_tokens (move : Move w a w') (within : w.pc.Within w.ring.cq.length) (is : watcher.Watcher)
    (quiet : ∀ pc, ¬ Rearms w a watcher pc) :
    w'.pc.begun watcher = w.pc.begun watcher ∧ w'.tokens watcher = w.tokens watcher := by
  cases move with
  | goto goto => exact goto.keeps_tokens
  | @rearm _ other pc rearms =>
    have apart : watcher ≠ other := fun same => quiet pc (same ▸ rearms)
    obtain ⟨begun, tokens⟩ := rearms.other is apart
    have pushed := World.tokens_push { w with pc := pc } ⟨.read 8, other⟩ watcher
    rw [if_neg apart.symm, tokens] at pushed
    exact ⟨begun, pushed⟩
  | @rearmFull _ other pc rearms => exact rearms.other is fun same => quiet pc (same ▸ rearms)
  | store here | drain here | runTask here | resumeIo here | resumeParked here =>
    exact ⟨by rw [here]; rfl, World.tokens_congr (World.flying_congr rfl (by rw [here]; rfl)) (by rw [here]; rfl)⟩
  | submit here =>
    refine ⟨by rw [here]; rfl, World.tokens_congr (World.flying_congr Ring.tagged_submit ?_) (by rw [here]; rfl)⟩
    rw [here, Ring.cq_submit]
    rfl
  | null here _ at_i data | completion here _ at_i data | completionFreed here _ at_i data =>
    have other : _ ≠ watcher := fun same => by cases is <;> cases data.symm.trans same
    exact ⟨by rw [here]; rfl, World.tokens_congr (World.flying_take_other here at_i other) (by rw [here]; rfl)⟩
  | @timers i n _ here _ at_i data good =>
    have taken := World.flying_take watcher here at_i
    refine ⟨by rw [here]; rfl, ?_⟩
    cases is with
    | eventfd => simpa [World.tokens, World.flying, here, data, Pc.held, Pc.unprocessed] using taken.symm
    | timerfd => simpa [World.tokens, World.flying, here, data, Pc.held, Pc.unprocessed] using taken.symm
  | advance here ended =>
    exact ⟨by rw [here]; rfl, World.tokens_congr (World.flying_advance within here ended) (by rw [here]; rfl)⟩
  | @suspend op _ _ user =>
    have pushed := w.tokens_push ⟨op.prep, .awaiter w.suspensions⟩ watcher
    rw [if_neg (is.of_awaiter _)] at pushed
    exact ⟨rfl, pushed⟩
  | selfStop user =>
    have pushed := w.tokens_push ⟨.nop, .null⟩ watcher
    rw [if_neg is.of_null] at pushed
    exact ⟨rfl, (World.tokens_submit { w with ring := w.ring.push ⟨.nop, .null⟩ } watcher).trans pushed⟩
  | consume oldest => exact ⟨rfl, World.tokens_congr (World.flying_congr (Ring.tagged_consume oldest) rfl) rfl⟩
  | wakeRead running data => exact ⟨rfl, World.tokens_congr (World.flying_complete within running data.symm) rfl⟩
  | ioDone running data => exact ⟨rfl, World.tokens_congr (World.flying_complete within running data.symm) rfl⟩
  | otherDone running => exact ⟨rfl, World.tokens_congr (World.flying_complete within running rfl) rfl⟩
  | _ => exact ⟨rfl, rfl⟩

/-- Where a watcher that asks gets an SQE, each keeps its read. -/
theorem Move.keeps_alive (move : Move w a w') (within : w.pc.Within w.ring.cq.length) (met : armed w a = true)
    (is : watcher.Watcher) (alive : w.Alive watcher) : w'.Alive watcher := by
  unfold World.Alive at alive ⊢
  by_cases asks : w.arms a = true
  · obtain ⟨other, pc, rearms, got, _⟩ := move.arms asks
    have room : w.ring.pending < w.ring.entries := by simpa [armed, asks] using met
    have pushed := World.tokens_push { w with pc := pc } ⟨.read 8, other⟩ watcher
    rw [got room]
    refine pushed.trans ?_
    by_cases same : other = watcher
    · subst same
      obtain ⟨begun, taken⟩ := rearms.taken
      rw [begun]
      dsimp only
      rw [if_pos rfl, if_pos rfl]
      omega
    · obtain ⟨begun, tokens⟩ := rearms.other is (Ne.symm same)
      rw [begun, tokens, alive]
      dsimp only
      rw [if_neg same, Nat.add_zero]
  · obtain ⟨begun, tokens⟩ := move.keeps_tokens within is fun pc rearms => asks rearms.arms
    rw [tokens, begun, alive]

/-- A watcher that asks and gets no SQE is lost. -/
theorem Move.loses (move : Move w a w') (unmet : armed w a ≠ true)
    (alive : ∀ watcher : UserData, watcher.Watcher → w.Alive watcher) :
    w'.Deserted := by
  obtain ⟨asks, full⟩ : w.arms a = true ∧ w.ring.entries ≤ w.ring.pending := by simpa [armed] using unmet
  obtain ⟨watcher, pc, rearms, _, missed⟩ := move.arms asks
  obtain ⟨begun, taken⟩ := rearms.taken
  have had := alive watcher rearms.isWatcher
  unfold World.Alive at had
  rw [missed full]
  exact ⟨watcher, rearms.isWatcher, begun, by omega⟩

/-- It never gets a read again. -/
theorem Move.lost (move : Move w a w') (within : w.pc.Within w.ring.cq.length) (is : watcher.Watcher)
    (lost : w.Lost watcher) : w'.Lost watcher := by
  obtain ⟨started, none_left⟩ := lost
  have quiet : ∀ pc, ¬ Rearms w a watcher pc := by
    intro pc rearms
    have taken := rearms.taken.2
    rw [started, if_pos rfl] at taken
    omega
  obtain ⟨begun, tokens⟩ := move.keeps_tokens within is quiet
  exact ⟨begun.trans started, tokens.trans none_left⟩

/-- What a step is once coroutines may be started early: one of the
scheduler, or one of user code taken before `run()`. -/
theorem launchStep_cases (move : launchStep w a = some w') :
    step w a = some w' ∨ w.pc = .created ∧ a.starts = true ∧
      ∃ next, step { w with pc := .inCoro } a = some next ∧ w' = { next with pc := .created } := by
  have other : ∀ b, launchStep w b = (if w.pc = .created ∧ b.starts = true then
      (step { w with pc := .inCoro } b).map fun next => { next with pc := .created } else step w b) ∨ b = .next := by
    intro b
    cases b with
    | next => exact Or.inr rfl
    | _ => exact Or.inl rfl
  rcases other a with same | rfl
  · rw [same] at move
    by_cases early : w.pc = .created ∧ a.starts = true
    · rw [if_pos early] at move
      obtain ⟨next, moved, rfl⟩ := Option.map_eq_some_iff.mp move
      exact Or.inr ⟨early.1, early.2, next, moved, rfl⟩
    · rw [if_neg early] at move
      exact Or.inl move
  · exact Or.inl (Option.ite_none_left_eq_some.mp move).2

theorem World.arms_starts (w : World) (starts : a.starts = true) : w.arms a = false := by
  cases a with
  | next | ret => cases starts
  | _ => rfl

theorem Move.starts (move : Move w a w') (starts : a.starts = true) : w'.pc = w.pc := by
  cases move with
  | goto goto => cases goto <;> cases starts
  | rearm rearms | rearmFull rearms => cases rearms <;> cases starts
  | _ => first | rfl | cases starts

/-- Coroutines started before `run()` leave the watchers as they are. -/
theorem World.tokens_early {next : World} (early : w.pc = .created) (starts : a.starts = true)
    (moved : step { w with pc := .inCoro } a = some next) (is : watcher.Watcher) :
    World.tokens { next with pc := .created } watcher = w.tokens watcher := by
  have move := (step_move moved).2
  have same := move.starts starts
  have within : ({ w with pc := .inCoro } : World).pc.Within w.ring.cq.length := trivial
  obtain ⟨_, tokens⟩ := move.keeps_tokens within is fun pc rearms =>
    Bool.false_ne_true ((World.arms_starts _ starts).symm.trans rearms.arms)
  have before : World.tokens { w with pc := .inCoro } watcher = w.tokens watcher :=
    World.tokens_congr (World.flying_congr rfl (by rw [early]; rfl)) (by rw [early]; rfl)
  rw [← before, ← tokens]
  exact World.tokens_congr (World.flying_congr rfl (by rw [same]; rfl)) (by rw [same]; rfl)

theorem run_within {entries : Nat} {sqpoll : Bool} {acts : List Act} (reach : Run launchStep (start entries sqpoll) acts w) :
    w.pc.Within w.ring.cq.length := by
  refine reach.invariant (P := fun w => w.pc.Within w.ring.cq.length) trivial fun within move => ?_
  rcases launchStep_cases move with move | ⟨_, _, _, _, rfl⟩
  · exact (step_move move).2.within within
  · trivial

theorem run_alive {entries : Nat} {sqpoll : Bool} {acts : List Act}
    (reach : RunWhile launchStep (fun w a => armed w a = true) (start entries sqpoll) acts w) (is : watcher.Watcher) :
    w.Alive watcher := by
  induction reach with
  | start => cases is <;> rfl
  | @next _ t _ _ before met move ih =>
    rcases launchStep_cases move with move | ⟨early, starts, _, moved, rfl⟩
    · exact (step_move move).2.keeps_alive (run_within before.run) met is ih
    · have alive : t.tokens watcher = 0 := by simpa [World.Alive, early, Pc.begun] using ih
      exact (World.tokens_early early starts moved is).trans alive

theorem World.attends_iff (here : w.pc = .submitting) : w.Attends watcher ↔ 0 < w.tokens watcher := by
  have all : w.tokens watcher = w.ring.tagged watcher + (w.ring.cq.map Cqe.userData).count watcher := by
    simp [World.tokens, World.flying, here, Pc.held, Pc.unprocessed]
  rw [all, Nat.add_pos_iff_pos_or_pos, Ring.tagged, List.count_pos_iff, List.count_pos_iff, List.mem_map, List.mem_map]
  rfl

/-- When the loop is about to block, both watchers have their reads exactly if
each got an SQE whenever it asked for one. -/
theorem watchers_attend_iff {entries : Nat} {sqpoll : Bool} {acts : List Act}
    (reach : Run launchStep (start entries sqpoll) acts w) (here : w.pc = .submitting) :
    (w.Attends .eventfd ∧ w.Attends .timerfd) ↔
      RunWhile launchStep (fun w a => armed w a = true) (start entries sqpoll) acts w := by
  constructor
  · rintro ⟨eventfd, timerfd⟩
    have split : RunWhile launchStep (fun w a => armed w a = true) (start entries sqpoll) acts w ∨ w.Deserted := by
      refine reach.meets_or (fun before move unmet => ?_) fun before move ⟨watcher, is, lost⟩ => ⟨watcher, is, ?_⟩
      · rcases launchStep_cases move with move | ⟨_, starts, _⟩
        · exact (step_move move).2.loses unmet fun watcher is => run_alive before is
        · exact absurd (by simp [armed, World.arms_starts _ starts]) unmet
      · rcases launchStep_cases move with move | ⟨early, _⟩
        · exact (step_move move).2.lost (run_within before) is lost
        · exact absurd lost.1 (by simp [early, Pc.begun])
    refine split.resolve_right ?_
    rintro ⟨watcher, is, _, none_left⟩
    cases is with
    | eventfd => exact absurd ((World.attends_iff here).mp eventfd) (by omega)
    | timerfd => exact absurd ((World.attends_iff here).mp timerfd) (by omega)
  · intro good
    have begun : ∀ watcher : UserData, w.pc.begun watcher = true := fun _ => by rw [here]; rfl
    have one : ∀ watcher : UserData, watcher.Watcher → w.Attends watcher := by
      intro watcher is
      have alive := run_alive good is
      rw [World.Alive, begun, if_pos rfl] at alive
      exact (World.attends_iff here).mpr (by omega)
    exact ⟨one _ .eventfd, one _ .timerfd⟩

/-- A coroutine is started before `run()`, and one by the callbacks of a
timer; then the loop is about to block for the second time. -/
def attendedActs : List Act :=
  [.spawn 0, .suspend (.recv 7 64), .next, .next, .next, .next, .next, .next, .next, .next, .next, .next,
    .complete 2 8 0, .next, .next, .spawn 1, .suspend (.recv 8 64), .ret, .next, .next, .next, .next, .next, .next]

theorem attended_reads :
    (after launchStep (start 4 false) attendedActs).Attends .eventfd ∧
      (after launchStep (start 4 false) attendedActs).Attends .timerfd :=
  (watchers_attend_iff (run_after (by decide)) rfl).mpr (guarded_run (run_eq_some rfl))

/-- Coroutines started before `run()` fill a ring of four entries. -/
def crowdedActs : List Act :=
  [.spawn 0, .suspend (.recv 7 64), .spawn 1, .suspend (.recv 8 64), .spawn 2, .suspend (.recv 9 64), .spawn 3,
    .suspend (.recv 10 64), .next, .next, .next, .next, .next, .next, .next, .next, .next]

/-- Neither watcher gets an SQE then, and none asks again. -/
theorem crowded_unattended : ∃ w, Run launchStep (start 4 false) crowdedActs w ∧ w.pc = .submitting ∧
    ¬ w.Attends .eventfd ∧ ¬ w.Attends .timerfd := by
  refine ⟨after launchStep (start 4 false) crowdedActs, run_after (by decide), rfl, ?_, ?_⟩
  · exact fun attends => absurd ((World.attends_iff rfl).mp attends) (by decide)
  · exact fun attends => absurd ((World.attends_iff rfl).mp attends) (by decide)

end CoroNet.Scheduler
