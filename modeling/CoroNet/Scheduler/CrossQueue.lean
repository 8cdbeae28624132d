import CoroNet.Scheduler.Tokens

namespace CoroNet.Scheduler

open Function Transition

variable {w w' : World} {a : Act}

/-- The next step of the loop arms the watcher of the eventfd. -/
def World.watches (w : World) : Bool :=
  match w.pc with
  | .cleared => true
  | .batch i n => decide (i < n) && (w.ring.cq[i]?).any fun cqe => decide (cqe.userData = .eventfd)
  | _ => false

/-- Tasks do not throw, and the watcher of the eventfd gets an SQE. -/
def assumed (w : World) : Act → Bool
  | .raise => false
  | .next => !w.watches || decide (w.ring.pending < w.ring.entries)
  | _ => true

/-- The tasks of the current drain that are still to be called. -/
def Pc.rest : Pc → List Task
  | .tasks rest | .inTask rest => rest
  | _ => []

/-- What was pushed is what was taken out, in its order, and what is still
there; the tasks taken out have been called in their order, the rest is due. -/
structure Ledger (w : World) : Prop where
  handles : w.pushedHandles = w.drained.map Prod.fst ++ w.handles
  tasks : w.pushedTasks = w.drainedTasks ++ w.tasks
  ran : w.drainedTasks.map Pushed.item = w.ran ++ w.pc.rest

theorem Goto.rest {pc : Pc} (goto : Goto w a pc) (no_throw : a ≠ .raise) : pc.rest = w.pc.rest := by
  cases goto with
  | raise => exact absurd rfl no_throw
  | _ => simp only [Pc.rest, *]

theorem Rearms.rest {watcher : UserData} {pc : Pc} (rearms : Rearms w a watcher pc) : pc.rest = w.pc.rest := by
  cases rearms <;> simp only [Pc.rest, *]

theorem Move.ledger (move : Move w a w') (no_throw : a ≠ .raise) (ledger : Ledger w) : Ledger w' := by
  obtain ⟨handles, tasks, ran⟩ := ledger
  cases move with
  | goto goto =>
    rw [← goto.rest no_throw] at ran
    exact ⟨handles, tasks, ran⟩
  | rearm rearms | rearmFull rearms =>
    rw [← rearms.rest] at ran
    exact ⟨handles, tasks, ran⟩
  | drain here =>
    have called : w.drainedTasks.map Pushed.item = w.ran := by simpa [here, Pc.rest] using ran
    refine ⟨?_, ?_, ?_⟩
    · simpa [World.drain, Function.comp_def] using handles
    · simpa [World.drain] using tasks
    · simp [World.drain, Pc.rest, called]
  | runTask here =>
    refine ⟨handles, tasks, ?_⟩
    simpa [here, Pc.rest] using ran
  | queueBootTask | postTask =>
    refine ⟨handles, ?_, ran⟩
    simp only [tasks, List.append_assoc]
  | post =>
    refine ⟨?_, tasks, ran⟩
    simp only [handles, List.append_assoc]
  | store here | resumeIo here | resumeParked here | submit here | null here | timers here | completion here
  | completionFreed here | advance here =>
    rw [here] at ran
    exact ⟨handles, tasks, ran⟩
  | _ => exact ⟨handles, tasks, ran⟩

/-- The watcher has not been armed for the first time. -/
def Pc.unwatched : Pc → Bool
  | .created | .entered | .cleared => true
  | _ => false

/-- Once the watcher is armed the ring holds exactly one read of the eventfd
or completion of it; while the worker is blocked nothing is left unsubmitted. -/
structure Watched (w : World) : Prop where
  one : w.flying .eventfd = if w.pc.unwatched then 0 else 1
  idle : w.pc = .waiting → w.ring.queued = []

theorem World.userCode_awake (user : w.userCode = true) : w.pc ≠ .waiting := by
  intro here
  simp [World.userCode, here] at user

theorem Goto.unwatched {pc : Pc} (goto : Goto w a pc) : pc.unwatched = w.pc.unwatched := by
  cases goto <;> simp only [Pc.unwatched, *]

/-- A step after which the ring holds as many tokens of the eventfd as before. -/
theorem Watched.steady (watched : Watched w) (flying : w'.flying .eventfd = w.flying .eventfd)
    (unwatched : w'.pc.unwatched = w.pc.unwatched) (idle : w'.pc = .waiting → w'.ring.queued = []) : Watched w' := by
  refine ⟨?_, idle⟩
  rw [flying, watched.one, unwatched]

/-- The loop takes the completion of the read and arms the watcher again. -/
theorem Watched.again (watched : Watched w) {i n : Nat} {cqe : Cqe} (here : w.pc = .batch i n)
    (at_i : w.ring.cq[i]? = some cqe) (data : cqe.userData = .eventfd) :
    Watched { w with
      ring := w.ring.push ⟨.read 8, .eventfd⟩
      pc := .batch (i + 1) n } := by
  have taken := World.flying_take UserData.eventfd here at_i
  rw [data] at taken
  refine watched.steady ?_ (by rw [here]; rfl) nofun
  rw [taken]
  exact World.flying_push ⟨.read 8, .eventfd⟩ rfl rfl

/-- The loop takes another completion. -/
theorem Watched.take (watched : Watched w) {i n : Nat} {cqe : Cqe} (here : w.pc = .batch i n)
    (at_i : w.ring.cq[i]? = some cqe) (data : cqe.userData ≠ .eventfd) :
    Watched { w with pc := .batch (i + 1) n } :=
  watched.steady (World.flying_take_other here at_i data) (by rw [here]; rfl) nofun

theorem Watched.push (watched : Watched w) (sqe : Sqe) (other : sqe.userData ≠ .eventfd) {pc : Pc}
    (awake : pc ≠ .waiting) (unwatched : pc.unwatched = w.pc.unwatched)
    (unprocessed : pc.unprocessed w.ring.cq = w.pc.unprocessed w.ring.cq) :
    Watched { w with ring := w.ring.push sqe, pc := pc } :=
  watched.steady (World.flying_push_other rfl unprocessed other) unwatched fun here => absurd here awake

theorem Watched.rearm (watched : Watched w) {watcher : UserData} {pc : Pc} (rearms : Rearms w a watcher pc) :
    Watched { w with ring := w.ring.push ⟨.read 8, watcher⟩, pc := pc } := by
  cases rearms with
  | watch here =>
    have one := watched.one
    refine ⟨?_, nofun⟩
    rw [World.flying_push (w := w) _ rfl (by rw [here]; rfl), one, here]
    rfl
  | startTimers here => exact watched.push _ (by simp) nofun (by rw [here]; rfl) (by rw [here]; rfl)
  | eventfd here _ at_i data => exact watched.again here at_i data
  | timerError here _ at_i data =>
    exact (watched.take here at_i (by simp [data])).push _ (by simp) nofun rfl rfl
  | timersRun _ here => exact watched.push _ (by simp) nofun (by rw [here]; rfl) (by rw [here]; rfl)

theorem Move.watched (move : Move w a w') (within : w.pc.Within w.ring.cq.length) (met : assumed w a = true)
    (watched : Watched w) : Watched w' := by
  cases move with
  | goto goto =>
    refine watched.steady goto.flying goto.unwatched fun waits => ?_
    cases goto <;> cases waits
  | rearm rearms => exact watched.rearm rearms
  | rearmFull rearms full =>
    cases rearms with
    | watch here =>
      have room : w.ring.pending < w.ring.entries := by simpa [assumed, World.watches, here] using met
      omega
    | startTimers here => exact watched.steady (World.flying_congr rfl (by rw [here]; rfl)) (by rw [here]; rfl) nofun
    | eventfd here less at_i data =>
      have room : w.ring.pending < w.ring.entries := by
        simpa [assumed, World.watches, here, less, at_i, data] using met
      omega
    | timerError here _ at_i data => exact watched.take here at_i (by simp [data])
    | timersRun _ here => exact watched.steady (World.flying_congr rfl (by rw [here]; rfl)) (by rw [here]; rfl) nofun
  | store here | drain here | runTask here | resumeIo here | resumeParked here =>
    exact watched.steady (World.flying_congr rfl (by rw [here]; rfl)) (by rw [here]; rfl) nofun
  | submit here =>
    refine watched.steady (World.flying_congr Ring.tagged_submit ?_) (by rw [here]; rfl) fun _ => ?_
    · rw [here, Ring.cq_submit]
      rfl
    · exact Ring.queued_submit
  | null here _ at_i data | completion here _ at_i data | completionFreed here _ at_i data =>
    have taken := watched.take here at_i (by simp [data])
    exact ⟨taken.one, taken.idle⟩
  | timers here _ at_i data =>
    have taken := watched.take here at_i (by simp [data])
    exact ⟨taken.one, nofun⟩
  | advance here ended => exact watched.steady (World.flying_advance within here ended) (by rw [here]; rfl) nofun
  | @suspend op _ _ user =>
    have pushed := watched.push ⟨op.prep, .awaiter w.suspensions⟩ (by simp) (World.userCode_awake user) rfl rfl
    exact ⟨pushed.one, pushed.idle⟩
  | selfStop user =>
    have pushed := watched.push ⟨.nop, .null⟩ (by simp) (World.userCode_awake user) rfl rfl
    refine pushed.steady (World.flying_congr Ring.tagged_submit ?_) rfl fun _ => Ring.queued_submit
    rw [Ring.cq_submit]
  | consume oldest => exact watched.steady (World.flying_congr (Ring.tagged_consume oldest) rfl) rfl watched.idle
  | wakeRead running data =>
    exact watched.steady (World.flying_complete within running data.symm) rfl watched.idle
  | ioDone running data => exact watched.steady (World.flying_complete within running data.symm) rfl watched.idle
  | otherDone running => exact watched.steady (World.flying_complete within running rfl) rfl watched.idle
  | _ => exact ⟨watched.one, watched.idle⟩

/-- The eventfd has been written to, or the completion of its read waits to be taken. -/
def World.Signalled (w : World) : Prop := 0 < w.wakeCount ∨ ∃ cqe ∈ w.ring.cq, cqe.userData = .eventfd

/-- What a foreign thread has done wakes the worker: the thread still owes its
write to the eventfd, or the worker is signalled. -/
def World.Rouses (w : World) (owner : Option Nat) : Prop := (∃ t, owner = some t ∧ w.owes t = true) ∨ w.Signalled

/-- The worker will not look at `cross_` before it blocks. -/
def Pc.pastDrain : Pc → Bool
  | .tasks _ | .inTask _ | .ready | .inCoro | .check | .submitting | .waiting => true
  | _ => false

/-- The worker will not look at `stopping_` before it blocks. -/
def Pc.pastCheck : Pc → Bool
  | .submitting | .waiting => true
  | _ => false

/-- Whatever the worker will not see before it blocks wakes it. -/
structure Roused (w : World) : Prop where
  handles : w.pc.pastDrain = true → ∀ p ∈ w.handles, w.Rouses p.owner
  tasks : w.pc.pastDrain = true → ∀ p ∈ w.tasks, w.Rouses p.owner
  stopper : w.pc.pastCheck = true → ∀ t, w.stopper = some t → w.Rouses (some t)
  stopping : ∀ t, w.stopper = some t → w.stopping = true

theorem World.Signalled.mono (count : 0 < w.wakeCount → 0 < w'.wakeCount) (cq : ∀ cqe ∈ w.ring.cq, cqe ∈ w'.ring.cq)
    (signalled : w.Signalled) : w'.Signalled := by
  rcases signalled with positive | ⟨cqe, member, data⟩
  · exact Or.inl (count positive)
  · exact Or.inr ⟨cqe, cq cqe member, data⟩

theorem World.Rouses.mono {owner : Option Nat} (owes : ∀ t, w.owes t = true → w'.owes t = true)
    (signalled : w.Signalled → w'.Signalled) (rouses : w.Rouses owner) : w'.Rouses owner := by
  rcases rouses with ⟨t, mine, owing⟩ | already
  · exact Or.inl ⟨t, mine, owes t owing⟩
  · exact Or.inr (signalled already)

/-- A step that leaves `cross_` and `stopping_` alone. -/
theorem Roused.steady (roused : Roused w) (owes : ∀ t, w.owes t = true → w'.owes t = true)
    (signalled : w.Signalled → w'.Signalled) (handles : w'.handles = w.handles) (tasks : w'.tasks = w.tasks)
    (stopper : w'.stopper = w.stopper) (stopping : w'.stopping = w.stopping)
    (drain : w'.pc.pastDrain = true → w.pc.pastDrain = true)
    (check : w'.pc.pastCheck = true → w.pc.pastCheck = true) : Roused w' := by
  refine ⟨fun past p member => ?_, fun past p member => ?_, fun past t mine => ?_, fun t mine => ?_⟩
  · rw [handles] at member
    exact (roused.handles (drain past) p member).mono owes signalled
  · rw [tasks] at member
    exact (roused.tasks (drain past) p member).mono owes signalled
  · rw [stopper] at mine
    exact (roused.stopper (check past) t mine).mono owes signalled
  · rw [stopper] at mine
    rw [stopping, roused.stopping t mine]

theorem Roused.goto (roused : Roused w) {pc : Pc} (goto : Goto w a pc) : Roused { w with pc := pc } := by
  cases goto with
  | goSubmit here going =>
    refine ⟨fun _ => roused.handles (by rw [here]; rfl), fun _ => roused.tasks (by rw [here]; rfl), ?_,
      roused.stopping⟩
    intro _ t mine
    exact absurd (roused.stopping t mine) (by simp [going])
  | _ => exact roused.steady (fun _ => id) id rfl rfl rfl rfl (by simp [Pc.pastDrain, *]) (by simp [Pc.pastCheck])

theorem Rearms.pastDrain {watcher : UserData} {pc : Pc} (rearms : Rearms w a watcher pc) : pc.pastDrain = false := by
  cases rearms <;> rfl

theorem Pc.pastDrain_of_pastCheck {pc : Pc} (past : pc.pastCheck = true) : pc.pastDrain = true := by
  cases pc <;> simp_all [Pc.pastCheck, Pc.pastDrain]

/-- Where the worker drains first nothing is asked but that `stopping_` is set. -/
theorem Roused.early (early : w.pc.pastDrain = false) (stopping : ∀ t, w.stopper = some t → w.stopping = true) :
    Roused w where
  handles past := absurd past (by simp [early])
  tasks past := absurd past (by simp [early])
  stopper past := absurd (Pc.pastDrain_of_pastCheck past) (by simp [early])
  stopping := stopping

/-- A thread that is not in the middle of something pushes or stops. -/
theorem World.Rouses.owe {owner : Option Nat} (t : Nat) (owes : w'.owes = update w.owes t true)
    (count : w'.wakeCount = w.wakeCount) (cq : w'.ring.cq = w.ring.cq) (rouses : w.Rouses owner) :
    w'.Rouses owner := by
  refine rouses.mono (fun u owing => ?_) (World.Signalled.mono (by rw [count]; exact id) (by rw [cq]; exact fun _ => id))
  rw [owes]
  by_cases same : u = t
  · rw [same, update_self]
  · rw [update_of_ne same, owing]

/-- With the counter positive everything is roused. -/
theorem Roused.signalled (signalled : w.Signalled) (stopping : ∀ t, w.stopper = some t → w.stopping = true) :
    Roused w where
  handles _ _ _ := Or.inr signalled
  tasks _ _ _ := Or.inr signalled
  stopper _ _ _ := Or.inr signalled
  stopping := stopping

theorem World.Signalled.complete {k : Nat} {cqe : Cqe} (signalled : w.Signalled) :
    World.Signalled { w with ring := w.ring.complete k cqe } :=
  World.Signalled.mono (w := w) id (fun _ => List.mem_append_left _) signalled

theorem Move.roused (move : Move w a w') (roused : Roused w) : Roused w' := by
  cases move with
  | goto goto => exact roused.goto goto
  | rearm rearms | rearmFull rearms => exact Roused.early rearms.pastDrain roused.stopping
  | store => exact Roused.early rfl nofun
  | null | timers | completion | completionFreed | advance => exact Roused.early rfl roused.stopping
  | drain => exact ⟨nofun, nofun, nofun, roused.stopping⟩
  | runTask here | resumeIo here | resumeParked here =>
    exact roused.steady (fun _ => id) id rfl rfl rfl rfl (fun _ => by rw [here]; rfl) nofun
  | submit here =>
    have signalled : w.Signalled → World.Signalled { w with ring := w.ring.submit, pc := .waiting } :=
      World.Signalled.mono id (by simp)
    exact roused.steady (fun _ => id) signalled rfl rfl rfl rfl (fun _ => by rw [here]; rfl) fun _ => by rw [here]; rfl
  | selfStop _ going =>
    have no_stopper : ∀ t, w.stopper ≠ some t := fun t mine => by simp [roused.stopping t mine] at going
    have signalled : w.Signalled → World.Signalled { w with
        stopping := true
        ring := (w.ring.push ⟨.nop, .null⟩).submit } :=
      World.Signalled.mono id (by simp)
    refine ⟨fun past p member => ?_, fun past p member => ?_, fun _ t mine => absurd mine (no_stopper t), fun _ _ => rfl⟩
    · exact World.Rouses.mono (w := w) (fun _ => id) signalled (roused.handles past p member)
    · exact World.Rouses.mono (w := w) (fun _ => id) signalled (roused.tasks past p member)
  | selfStopFull => exact ⟨roused.handles, roused.tasks, roused.stopper, fun _ _ => rfl⟩
  | queueBootTask here => exact Roused.early (by rw [here]; rfl) roused.stopping
  | @post t h _ =>
    have kept : ∀ o, w.Rouses o → World.Rouses { w with
        handles := w.handles ++ [⟨some t, h⟩]
        pushedHandles := w.pushedHandles ++ [⟨some t, h⟩]
        owes := update w.owes t true } o := fun _ => World.Rouses.owe t rfl rfl rfl
    refine ⟨fun past p member => ?_, fun past p member => kept _ (roused.tasks past p member),
      fun past u mine => kept _ (roused.stopper past u mine), roused.stopping⟩
    rcases List.mem_append.mp member with old | new
    · exact kept _ (roused.handles past p old)
    · rw [List.mem_singleton.mp new]
      exact Or.inl ⟨t, rfl, update_self ..⟩
  | @postTask t f _ =>
    have kept : ∀ o, w.Rouses o → World.Rouses { w with
        tasks := w.tasks ++ [⟨some t, f⟩]
        pushedTasks := w.pushedTasks ++ [⟨some t, f⟩]
        owes := update w.owes t true } o := fun _ => World.Rouses.owe t rfl rfl rfl
    refine ⟨fun past p member => kept _ (roused.handles past p member), fun past p member => ?_,
      fun past u mine => kept _ (roused.stopper past u mine), roused.stopping⟩
    rcases List.mem_append.mp member with old | new
    · exact kept _ (roused.tasks past p old)
    · rw [List.mem_singleton.mp new]
      exact Or.inl ⟨t, rfl, update_self ..⟩
  | @stop t _ _ =>
    have kept : ∀ o, w.Rouses o →
        World.Rouses { w with stopping := true, stopper := some t, owes := update w.owes t true } o :=
      fun _ => World.Rouses.owe t rfl rfl rfl
    refine ⟨fun past p member => kept _ (roused.handles past p member),
      fun past p member => kept _ (roused.tasks past p member), fun _ u mine => ?_, fun _ _ => rfl⟩
    exact Or.inl ⟨t, mine.symm, update_self ..⟩
  | wake =>
    refine Roused.signalled (Or.inl ?_) roused.stopping
    dsimp only
    split <;> omega
  | wakeRead => exact Roused.signalled (Or.inr ⟨_, List.mem_append_right _ (List.mem_singleton_self _), rfl⟩) roused.stopping
  | ioDone | otherDone =>
    exact roused.steady (fun _ => id) World.Signalled.complete rfl rfl rfl rfl id id
  | _ => exact ⟨roused.handles, roused.tasks, roused.stopper, roused.stopping⟩

/-- The steps by which handles and tasks leave `cross_`, are executed and
reach `ready_`: none but the worker's own, all handles there are at once, in
their order, those of the null handle and of finished coroutines left out. -/
structure Delivers (w : World) (a : Act) (w' : World) : Prop where
  worker : a ≠ .next → w'.drained = w.drained ∧ w'.drainedTasks = w.drainedTasks ∧ w'.ran = w.ran
  ready : w'.drained ≠ w.drained →
    w'.drained = w.drained ++ (w.handles.map fun p => (p, w.resumable p.item)) ∧
      w'.readyQueue = w.readyQueue ++ (w.handles.map Pushed.item).filter w.resumable

theorem Move.delivers (move : Move w a w') : Delivers w a w' := by
  cases move with
  | drain => exact ⟨fun other => absurd rfl other, fun _ => ⟨rfl, rfl⟩⟩
  | runTask => exact ⟨fun other => absurd rfl other, fun differs => absurd rfl differs⟩
  | _ => exact ⟨fun _ => ⟨rfl, rfl, rfl⟩, fun differs => absurd rfl differs⟩

/-- The thread still owes its write to the eventfd, or the counter is positive
with a read on it submitted, or a completion of that read is pending. -/
def World.WillWake (w : World) (owner : Option Nat) : Prop :=
  (∃ t, owner = some t ∧ w.owes t = true) ∨
    (0 < w.wakeCount ∧ ∃ sqe ∈ w.ring.unconsumed ++ w.ring.inflight, sqe.userData = .eventfd) ∨
    ∃ cqe ∈ w.ring.cq, cqe.userData = .eventfd

/-- While the worker is blocked the read of the eventfd is submitted or completed. -/
theorem Watched.submitted (watched : Watched w) (here : w.pc = .waiting) :
    (∃ sqe ∈ w.ring.unconsumed ++ w.ring.inflight, sqe.userData = .eventfd) ∨
      ∃ cqe ∈ w.ring.cq, cqe.userData = .eventfd := by
  have one := watched.one
  simp only [World.flying, Ring.tagged, Ring.sqes, watched.idle here, here, Pc.unwatched, Pc.unprocessed,
    List.nil_append, Bool.false_eq_true, if_false] at one
  by_cases completed : UserData.eventfd ∈ w.ring.cq.map Cqe.userData
  · exact Or.inr (List.mem_map.mp completed)
  · rw [List.count_eq_zero_of_not_mem completed, Nat.add_zero] at one
    have positive : 0 < ((w.ring.unconsumed ++ w.ring.inflight).map Sqe.userData).count .eventfd := by omega
    exact Or.inl (List.mem_map.mp (List.count_pos_iff.mp positive))

theorem Watched.willWake (watched : Watched w) (here : w.pc = .waiting) {owner : Option Nat}
    (rouses : w.Rouses owner) : w.WillWake owner := by
  rcases rouses with owing | positive | pending
  · exact Or.inl owing
  · rcases watched.submitted here with submitted | completed
    · exact Or.inr (Or.inl ⟨positive, submitted⟩)
    · exact Or.inr (Or.inr completed)
  · exact Or.inr (Or.inr pending)

/-- What holds in every state of a run in which tasks do not throw and the
watcher gets its SQEs. -/
structure CrossInv (w : World) : Prop where
  within : w.pc.Within w.ring.cq.length
  ledger : Ledger w
  watched : Watched w
  roused : Roused w

theorem CrossInv.start (entries : Nat) (sqpoll : Bool) : CrossInv (start entries sqpoll) where
  within := trivial
  ledger := ⟨rfl, rfl, rfl⟩
  watched := ⟨rfl, nofun⟩
  roused := Roused.early rfl nofun

theorem CrossInv.step (inv : CrossInv w) (met : assumed w a = true) (move : step w a = some w') : CrossInv w' := by
  have moved := (step_move move).2
  have no_throw : a ≠ .raise := by
    rintro rfl
    cases met
  exact ⟨moved.within inv.within, moved.ledger no_throw inv.ledger, moved.watched inv.within met inv.watched,
    moved.roused inv.roused⟩

/-- Under any interleaving of posting and stopping threads with the loop
nothing pushed is lost, taken twice or reordered, and a worker that is blocked
while there is something for it to see will be woken. -/
theorem cross_thread_delivery {entries : Nat} {sqpoll : Bool} {acts : List Act}
    (reach : RunWhile step (fun w a => assumed w a = true) (start entries sqpoll) acts w) :
    Ledger w ∧
    (∀ a w', step w a = some w' → Delivers w a w') ∧
    (w.pc = .waiting →
      (∀ p ∈ w.handles, w.WillWake p.owner) ∧ (∀ p ∈ w.tasks, w.WillWake p.owner) ∧
        ∀ t, w.stopper = some t → w.WillWake (some t)) := by
  have inv : CrossInv w := reach.invariant (.start entries sqpoll) fun held met move => held.step met move
  refine ⟨inv.ledger, fun a w' move => (step_move move).2.delivers, fun here => ⟨?_, ?_, ?_⟩⟩
  · intro p member
    exact inv.watched.willWake here (inv.roused.handles (by rw [here]; rfl) p member)
  · intro p member
    exact inv.watched.willWake here (inv.roused.tasks (by rw [here]; rfl) p member)
  · intro t mine
    exact inv.watched.willWake here (inv.roused.stopper (by rw [here]; rfl) t mine)

/-- A boot task starts a coroutine that waits for a post; while the worker is
blocked one thread posts it and writes, and another has set `stopping_`. -/
def postedActs : List Act :=
  [.queueBootTask 7, .next, .next, .next, .next, .next, .next, .next, .spawn 0, .park, .ret, .next, .next, .next,
    .next, .post 1 (some 0), .wake 1, .stop 2]

def postedWorld : World := after step (start 4 false) postedActs

theorem posted_delivery :
    (postedWorld.pc = .waiting ∧ postedWorld.handles.length = 1 ∧ postedWorld.stopper = some 2) ∧
    Ledger postedWorld ∧
    (∀ a w', step postedWorld a = some w' → Delivers postedWorld a w') ∧
    (postedWorld.pc = .waiting →
      (∀ p ∈ postedWorld.handles, postedWorld.WillWake p.owner) ∧
        (∀ p ∈ postedWorld.tasks, postedWorld.WillWake p.owner) ∧
        ∀ t, postedWorld.stopper = some t → postedWorld.WillWake (some t)) := by
  have reach : RunWhile step (fun w a => assumed w a = true) (start 4 false) postedActs postedWorld :=
    guarded_run (run_eq_some rfl)
  exact ⟨⟨rfl, rfl, rfl⟩, cross_thread_delivery reach⟩

end CoroNet.Scheduler
