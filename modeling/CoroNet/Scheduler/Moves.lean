import CoroNet.Scheduler.Loop

namespace CoroNet.Scheduler

open Function Transition

variable {w w' : World} {a : Act}

/-- The steps that only move the worker. -/
inductive Goto (w : World) : Act → Pc → Prop
  | enter : w.pc = .created → Goto w .next .entered
  | goOn : w.pc = .loop → w.stopping = false → Goto w .next .draining
  | leaveLoop : w.pc = .loop → w.stopping = true → Goto w .next .leaving
  | tasksDone : w.pc = .tasks [] → Goto w .next .ready
  | readyDone : w.pc = .ready → w.readyQueue = [] → Goto w .next .check
  | leaveCheck : w.pc = .check → w.stopping = true → Goto w .next .leaving
  | goSubmit : w.pc = .check → w.stopping = false → Goto w .next .submitting
  | wakeUp : w.pc = .waiting → w.ring.cq ≠ [] → Goto w .next (.batch 0 (w.ring.peekBatchCqe 64))
  | interrupt : w.pc = .waiting → Goto w .interrupt (.batch 0 (w.ring.peekBatchCqe 64))
  | fail : w.pc = .waiting → Goto w .fail .threw
  | return : w.pc = .leaving → Goto w .next .returned
  | retTask {rest : List Task} : w.stack = [] → w.pc = .inTask rest → Goto w .ret (.tasks rest)
  | retCoro : w.stack = [] → w.pc = .inCoro → Goto w .ret .ready
  | raise {rest : List Task} : w.stack = [] → w.pc = .inTask rest → Goto w .raise .threw

/-- The steps that arm a watcher, with the watcher and where they lead. -/
inductive Rearms (w : World) : Act → UserData → Pc → Prop
  | watch : w.pc = .cleared → Rearms w .next .eventfd .watching
  | startTimers : w.pc = .watching → Rearms w .next .timerfd .loop
  | eventfd {i n : Nat} {cqe : Cqe} : w.pc = .batch i n → i < n → w.ring.cq[i]? = some cqe →
      cqe.userData = .eventfd → Rearms w .next .eventfd (.batch (i + 1) n)
  | timerError {i n : Nat} {cqe : Cqe} : w.pc = .batch i n → i < n → w.ring.cq[i]? = some cqe →
      cqe.userData = .timerfd → cqe.res < 0 → Rearms w .next .timerfd (.batch (i + 1) n)
  | timersRun {i n : Nat} : w.stack = [] → w.pc = .inTimer i n → Rearms w .ret .timerfd (.batch (i + 1) n)

/-- Everything a step can be. -/
inductive Move (w : World) : Act → World → Prop
  | goto {a : Act} {pc : Pc} : Goto w a pc → Move w a { w with pc := pc }
  | rearm {a : Act} {watcher : UserData} {pc : Pc} : Rearms w a watcher pc → w.ring.pending < w.ring.entries →
      Move w a { w with ring := w.ring.push ⟨.read 8, watcher⟩, pc := pc }
  | rearmFull {a : Act} {watcher : UserData} {pc : Pc} : Rearms w a watcher pc →
      w.ring.entries ≤ w.ring.pending → Move w a { w with pc := pc }
  | store : w.pc = .entered → Move w .next { w with stopping := false, stopper := none, pc := .cleared }
  | drain : w.pc = .draining → Move w .next w.drain
  | runTask {f : Task} {rest : List Task} : w.pc = .tasks (f :: rest) →
      Move w .next { w with ran := w.ran ++ [f], pc := .inTask rest }
  | skip {h : Handle} {rest : List Handle} : w.pc = .ready → w.readyQueue = h :: rest →
      w.resumable h = false → Move w .next { w with readyQueue := rest }
  | resumeIo {c i : Nat} {awaiter : Awaiter} {rest : List Handle} : w.pc = .ready →
      w.readyQueue = some c :: rest → w.coros c = .suspended i → w.awaiters i = some awaiter →
      Move w .next (World.handOut { w with readyQueue := rest } c i awaiter.result)
  | resumeFreed {c i : Nat} {rest : List Handle} : w.pc = .ready →
      w.readyQueue = some c :: rest → w.coros c = .suspended i → w.awaiters i = none →
      Move w .next { w with readyQueue := rest, fault := some .useAfterFree }
  | resumeParked {c : Nat} {rest : List Handle} : w.pc = .ready → w.readyQueue = some c :: rest →
      w.coros c = .parked →
      Move w .next { w with readyQueue := rest, coros := update w.coros c .running, stack := [c], pc := .inCoro }
  | resumeBad {c : Nat} {rest : List Handle} : w.pc = .ready → w.readyQueue = some c :: rest →
      w.coros c = .absent ∨ w.coros c = .running →
      Move w .next { w with readyQueue := rest, fault := some .badResume }
  | submit : w.pc = .submitting → Move w .next { w with ring := w.ring.submit, pc := .waiting }
  | null {i n : Nat} {cqe : Cqe} : w.pc = .batch i n → i < n → w.ring.cq[i]? = some cqe →
      cqe.userData = .null → Move w .next { w with pc := .batch (i + 1) n }
  | timers {i n : Nat} {cqe : Cqe} : w.pc = .batch i n → i < n → w.ring.cq[i]? = some cqe →
      cqe.userData = .timerfd → 0 ≤ cqe.res → Move w .next { w with pc := .inTimer i n }
  | completion {i n b : Nat} {cqe : Cqe} {awaiter : Awaiter} : w.pc = .batch i n → i < n →
      w.ring.cq[i]? = some cqe → cqe.userData = .awaiter b → w.awaiters b = some awaiter →
      Move w .next { w with
        awaiters := update w.awaiters b (some { awaiter with result := cqe.res, cqeFlags := cqe.flags })
        written := w.written ++ if awaiter.op.hasBuffer ∧ 0 < cqe.res then [(b, cqe.res)] else []
        readyQueue :=
          if w.resumable (some awaiter.handle) then w.readyQueue ++ [some awaiter.handle] else w.readyQueue
        pc := .batch (i + 1) n }
  | completionFreed {i n b : Nat} {cqe : Cqe} : w.pc = .batch i n → i < n →
      w.ring.cq[i]? = some cqe → cqe.userData = .awaiter b → w.awaiters b = none →
      Move w .next { w with fault := some .useAfterFree, pc := .batch (i + 1) n }
  | beyond {i n : Nat} : w.pc = .batch i n → i < n → w.ring.cq[i]? = none → Move w .next w
  | advance {i n : Nat} : w.pc = .batch i n → n ≤ i →
      Move w .next { w with ring := w.ring.cqAdvance n, pc := .loop }
  | spawn {c : Nat} : w.userCode = true → w.coros c = .absent →
      Move w (.spawn c) { w with coros := update w.coros c .running, stack := c :: w.stack }
  | suspend {op : IoAwaiter} {c : Nat} {rest : List Nat} : w.userCode = true → w.stack = c :: rest →
      w.ring.pending < w.ring.entries →
      Move w (.suspend op) (w.suspendOn (w.ring.push ⟨op.prep, .awaiter w.suspensions⟩) op c rest)
  | suspendNull {op : IoAwaiter} {c : Nat} {rest : List Nat} : w.userCode = true → w.stack = c :: rest →
      w.ring.entries ≤ w.ring.pending → Move w (.suspend op) { w with fault := some .nullSqe }
  | park {c : Nat} {rest : List Nat} : w.userCode = true → w.stack = c :: rest →
      Move w .park { w with coros := update w.coros c .parked, stack := rest }
  | finish {c : Nat} {rest : List Nat} : w.userCode = true → w.stack = c :: rest →
      Move w .finish { w with coros := update w.coros c .done, stack := rest }
  | selfPost {h : Handle} : w.userCode = true → Move w (.selfPost h) { w with readyQueue := w.readyQueue ++ [h] }
  | selfStop : w.userCode = true → w.stopping = false → w.ring.pending < w.ring.entries →
      Move w .selfStop { w with
        stopping := true
        ring := (w.ring.push ⟨.nop, .null⟩).submit }
  | selfStopFull : w.userCode = true → w.stopping = false → w.ring.entries ≤ w.ring.pending →
      Move w .selfStop { w with stopping := true }
  | selfStopAgain : w.userCode = true → w.stopping = true → Move w .selfStop w
  | queueBootTask {f : Task} : w.pc = .created →
      Move w (.queueBootTask f)
        { w with tasks := w.tasks ++ [⟨none, f⟩], pushedTasks := w.pushedTasks ++ [⟨none, f⟩] }
  | post {t : Nat} {h : Handle} : w.owes t = false →
      Move w (.post t h) { w with
        handles := w.handles ++ [⟨some t, h⟩]
        pushedHandles := w.pushedHandles ++ [⟨some t, h⟩]
        owes := update w.owes t true }
  | postTask {t : Nat} {f : Task} : w.owes t = false →
      Move w (.postTask t f) { w with
        tasks := w.tasks ++ [⟨some t, f⟩]
        pushedTasks := w.pushedTasks ++ [⟨some t, f⟩]
        owes := update w.owes t true }
  | stop {t : Nat} : w.owes t = false → w.stopping = false →
      Move w (.stop t) { w with stopping := true, stopper := some t, owes := update w.owes t true }
  | stopAgain {t : Nat} : w.owes t = false → w.stopping = true → Move w (.stop t) w
  | wake {t : Nat} : w.owes t = true →
      Move w (.wake t) { w with
        wakeCount := if w.wakeCount < 2 ^ 64 - 2 then w.wakeCount + 1 else w.wakeCount
        owes := update w.owes t false }
  | consume {sqe : Sqe} {rest : List Sqe} : w.ring.unconsumed = sqe :: rest →
      Move w .consume
        { w with ring := { w.ring with unconsumed := rest, inflight := w.ring.inflight ++ [sqe] } }
  | wakeRead {k : Nat} {res : Int} {flags : Nat} {sqe : Sqe} : w.ring.inflight[k]? = some sqe →
      sqe.userData = .eventfd → 0 < w.wakeCount →
      Move w (.complete k res flags) { w with ring := w.ring.complete k ⟨.eventfd, 8, flags⟩, wakeCount := 0 }
  | ioDone {k b : Nat} {res : Int} {flags : Nat} {sqe : Sqe} : w.ring.inflight[k]? = some sqe →
      sqe.userData = .awaiter b →
      Move w (.complete k res flags)
        { w with ring := w.ring.complete k ⟨.awaiter b, res, flags⟩, posted := w.posted ++ [(b, res)] }
  | otherDone {k : Nat} {res : Int} {flags : Nat} {sqe : Sqe} : w.ring.inflight[k]? = some sqe →
      sqe.userData = .null ∨ sqe.userData = .timerfd →
      Move w (.complete k res flags) { w with ring := w.ring.complete k ⟨sqe.userData, res, flags⟩ }

namespace Ring

variable {r : Ring} {sqe : Sqe}

theorem getSqe_room (room : r.pending < r.entries) :
    r.getSqe sqe = some (r.push sqe) :=
  if_pos room

theorem getSqe_full (full : r.entries ≤ r.pending) : r.getSqe sqe = none :=
  if_neg (by omega)

end Ring

theorem rearm_move {watcher : UserData} {pc : Pc} (rearms : Rearms w a watcher pc) :
    Move w a { w.rearm watcher with pc := pc } := by
  unfold World.rearm
  by_cases room : w.ring.pending < w.ring.entries
  · rw [Ring.getSqe_room room]
    exact .rearm rearms room
  · have full : w.ring.entries ≤ w.ring.pending := by omega
    rw [Ring.getSqe_full full]
    exact .rearmFull rearms full

theorem suspend_move {op : IoAwaiter} {c : Nat} {rest : List Nat} (user : w.userCode = true)
    (top : w.stack = c :: rest) : Move w (.suspend op) (w.awaitSuspend op c rest) := by
  unfold World.awaitSuspend
  by_cases room : w.ring.pending < w.ring.entries
  · rw [Ring.getSqe_room room]
    exact .suspend user top room
  · have full : w.ring.entries ≤ w.ring.pending := by omega
    rw [Ring.getSqe_full full]
    exact .suspendNull user top full

theorem selfStop_move (user : w.userCode = true) : Move w .selfStop w.selfStop := by
  unfold World.selfStop
  split
  next up => exact .selfStopAgain user up
  next down =>
    have first : w.stopping = false := by simpa using down
    by_cases room : w.ring.pending < w.ring.entries
    · rw [Ring.getSqe_room room]
      exact .selfStop user first room
    · have full : w.ring.entries ≤ w.ring.pending := by omega
      rw [Ring.getSqe_full full]
      exact .selfStopFull user first full

theorem stop_move {t : Nat} (idle : w.owes t = false) : Move w (.stop t) (w.stop t) := by
  unfold World.stop
  split
  next up => exact .stopAgain idle up
  next down => exact .stop idle (by simpa using down)

theorem turn_move (here : w.pc = .ready) : Move w .next w.turn := by
  unfold World.turn
  split
  next empty => exact .goto (.readyDone here empty)
  next rest ahead => exact .skip here ahead rfl
  next c rest ahead =>
    unfold World.resume
    dsimp only
    split
    next i waits =>
      split
      next awaiter here' => exact .resumeIo here ahead waits here'
      next freed => exact .resumeFreed here ahead waits freed
    next waits => exact .resumeParked here ahead waits
    next ended => exact .skip here ahead (by simp [World.resumable, ended])
    next other => exact .resumeBad here ahead (Or.inl other)
    next other => exact .resumeBad here ahead (Or.inr other)

theorem process_move {i n : Nat} (here : w.pc = .batch i n) : Move w .next (w.process i n) := by
  unfold World.process
  split
  next within =>
    split
    next out => exact .beyond here within out
    next cqe at_i =>
      split
      next data => exact .null here within at_i data
      next data => exact rearm_move (.eventfd here within at_i data)
      next data =>
        split
        next good => exact .timers here within at_i data good
        next bad => exact rearm_move (.timerError here within at_i data (by omega))
      next b data =>
        unfold World.onComplete
        split
        next freed => exact .completionFreed here within at_i data freed
        next awaiter waiting => exact .completion here within at_i data waiting
  next ended => exact .advance here (by omega)

theorem next_move (move : w.next = some w') : Move w .next w' := by
  unfold World.next at move
  split at move
  next here =>
    cases Option.some.inj move
    exact .goto (.enter here)
  next here =>
    cases Option.some.inj move
    exact .store here
  next here =>
    cases Option.some.inj move
    exact rearm_move (.watch here)
  next here =>
    cases Option.some.inj move
    exact rearm_move (.startTimers here)
  next here =>
    cases Option.some.inj move
    split
    next stopping => exact .goto (.leaveLoop here stopping)
    next going => exact .goto (.goOn here (by simpa using going))
  next here =>
    cases Option.some.inj move
    exact .drain here
  next here =>
    cases Option.some.inj move
    exact .goto (.tasksDone here)
  next f rest here =>
    cases Option.some.inj move
    exact .runTask here
  next here =>
    cases Option.some.inj move
    exact turn_move here
  next here =>
    cases Option.some.inj move
    split
    next stopping => exact .goto (.leaveCheck here stopping)
    next going => exact .goto (.goSubmit here (by simpa using going))
  next here =>
    cases Option.some.inj move
    exact .submit here
  next here =>
    obtain ⟨some_cqe, moved⟩ := Option.ite_none_left_eq_some.mp move
    cases Option.some.inj moved
    exact .goto (.wakeUp here (by simpa using some_cqe))
  next i n here =>
    cases Option.some.inj move
    exact process_move here
  next here =>
    cases Option.some.inj move
    exact .goto (.return here)
  all_goals cases move

theorem ret_move (move : w.ret = some w') : Move w .ret w' := by
  unfold World.ret at move
  split at move
  next rest empty here =>
    cases Option.some.inj move
    exact .goto (.retTask empty here)
  next empty here =>
    cases Option.some.inj move
    exact .goto (.retCoro empty here)
  next i n empty here =>
    cases Option.some.inj move
    exact rearm_move (.timersRun empty here)
  next => cases move

theorem complete_move {k : Nat} {res : Int} {flags : Nat} (move : w.complete k res flags = some w') :
    Move w (.complete k res flags) w' := by
  unfold World.complete at move
  split at move
  next => cases move
  next sqe at_k =>
    split at move
    next data =>
      obtain ⟨positive, moved⟩ := Option.ite_none_right_eq_some.mp move
      cases Option.some.inj moved
      exact .wakeRead at_k data positive
    next b data =>
      cases Option.some.inj move
      exact .ioDone at_k data
    next not_eventfd not_awaiter =>
      cases Option.some.inj move
      refine .otherDone at_k ?_
      cases data : sqe.userData with
      | null => exact Or.inl rfl
      | timerfd => exact Or.inr rfl
      | eventfd => exact absurd data not_eventfd
      | awaiter b => exact absurd data (not_awaiter b)

theorem step_move (move : step w a = some w') : w.fault = none ∧ Move w a w' := by
  unfold step at move
  by_cases broken : w.fault.isSome = true
  · rw [if_pos broken] at move
    cases move
  rw [if_neg broken] at move
  refine ⟨by simpa using broken, ?_⟩
  cases a with
  | next => exact next_move move
  | interrupt =>
    dsimp only at move
    split at move
    next here =>
      cases Option.some.inj move
      exact .goto (.interrupt here)
    next => cases move
  | fail =>
    dsimp only at move
    split at move
    next here =>
      cases Option.some.inj move
      exact .goto (.fail here)
    next => cases move
  | spawn c =>
    obtain ⟨⟨user, fresh⟩, moved⟩ := Option.ite_none_right_eq_some.mp move
    cases Option.some.inj moved
    exact .spawn user fresh
  | suspend op =>
    cases top : w.stack with
    | nil => simp [top] at move
    | cons c rest =>
      simp only [top, Option.ite_none_right_eq_some, Option.some.injEq] at move
      obtain ⟨user, rfl⟩ := move
      exact suspend_move user top
  | park =>
    cases top : w.stack with
    | nil => simp [top] at move
    | cons c rest =>
      simp only [top, Option.ite_none_right_eq_some, Option.some.injEq] at move
      obtain ⟨user, rfl⟩ := move
      exact .park user top
  | finish =>
    cases top : w.stack with
    | nil => simp [top] at move
    | cons c rest =>
      simp only [top, Option.ite_none_right_eq_some, Option.some.injEq] at move
      obtain ⟨user, rfl⟩ := move
      exact .finish user top
  | selfPost h =>
    obtain ⟨user, moved⟩ := Option.ite_none_right_eq_some.mp move
    cases Option.some.inj moved
    exact .selfPost user
  | selfStop =>
    obtain ⟨user, moved⟩ := Option.ite_none_right_eq_some.mp move
    cases Option.some.inj moved
    exact selfStop_move user
  | ret => exact ret_move move
  | raise =>
    dsimp only at move
    split at move
    next rest empty here =>
      cases Option.some.inj move
      exact .goto (.raise empty here)
    next => cases move
  | queueBootTask f =>
    dsimp only at move
    split at move
    next here =>
      cases Option.some.inj move
      exact .queueBootTask here
    next => cases move
  | post t h =>
    obtain ⟨idle, moved⟩ := Option.ite_none_left_eq_some.mp move
    cases Option.some.inj moved
    exact .post (by simpa using idle)
  | postTask t f =>
    obtain ⟨idle, moved⟩ := Option.ite_none_left_eq_some.mp move
    cases Option.some.inj moved
    exact .postTask (by simpa using idle)
  | stop t =>
    obtain ⟨idle, moved⟩ := Option.ite_none_left_eq_some.mp move
    cases Option.some.inj moved
    exact stop_move (by simpa using idle)
  | wake t =>
    obtain ⟨owing, moved⟩ := Option.ite_none_right_eq_some.mp move
    cases Option.some.inj moved
    exact .wake owing
  | consume =>
    obtain ⟨ring, consumed, rfl⟩ := Option.map_eq_some_iff.mp move
    unfold Ring.consume at consumed
    split at consumed
    next => cases consumed
    next sqe rest head =>
      cases Option.some.inj consumed
      exact .consume head
  | complete k res flags => exact complete_move move

end CoroNet.Scheduler
