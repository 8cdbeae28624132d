import CoroNet.Scheduler.Suspended
import Mathlib.Data.List.Nodup

namespace CoroNet.Scheduler

open Function Transition

variable {w w' : World} {a : Act}

/-- The awaiter a coroutine is suspended on and the result in it. -/
def World.resultOf (w : World) : Handle → Option (Nat × Int)
  | none => none
  | some c =>
    match w.coros c with
    | .suspended b => (w.awaiters b).map fun aw => (b, aw.result)
    | _ => none

def Cqe.ioResult (cqe : Cqe) : Option (Nat × Int) :=
  match cqe.userData with
  | .awaiter b => some (b, cqe.res)
  | _ => none

/-- The results that wait in `ready_`. -/
def World.readyResults (w : World) : List (Nat × Int) := w.readyQueue.filterMap w.resultOf

/-- The results of the completions that have not been taken. -/
def World.cqResults (w : World) : List (Nat × Int) := (w.pc.unprocessed w.ring.cq).filterMap Cqe.ioResult

/-- The results handed out, those in `ready_` and those in the completion
queue are, in this order, the results the kernel has posted; an awaiter has
handed its result out if and only if it is gone. -/
structure InOrder (w : World) : Prop where
  posted : w.posted = w.resumed ++ w.readyResults ++ w.cqResults
  once : ∀ b, (w.resumed.map Prod.fst).count b = if b < w.suspensions ∧ w.awaiters b = none then 1 else 0

theorem World.resultOf_congr {h : Handle} (coro : ∀ c, h = some c → w'.coros c = w.coros c)
    (awaiter : ∀ c b, h = some c → w.coros c = .suspended b → w'.awaiters b = w.awaiters b) :
    w'.resultOf h = w.resultOf h := by
  cases h with
  | none => rfl
  | some c =>
    simp only [World.resultOf, coro c rfl]
    cases here : w.coros c with
    | suspended b => simp only [awaiter c b rfl here]
    | _ => rfl

/-- Handles of coroutines that are not suspended on an awaiter carry no result. -/
theorem World.resultOf_none {h : Handle} (other : ∀ c b, h = some c → w.coros c ≠ .suspended b) :
    w.resultOf h = none := by
  cases h with
  | none => rfl
  | some c =>
    simp only [World.resultOf]
    split
    next b here => exact absurd here (other c b rfl)
    next => rfl

theorem World.resultOf_suspended {c b : Nat} {aw : Awaiter} (here : w.coros c = .suspended b)
    (mine : w.awaiters b = some aw) : w.resultOf (some c) = some (b, aw.result) := by
  simp only [World.resultOf, here, mine, Option.map_some]

theorem World.readyResults_congr (queue : w'.readyQueue = w.readyQueue)
    (same : ∀ h ∈ w.readyQueue, w'.resultOf h = w.resultOf h) : w'.readyResults = w.readyResults := by
  unfold World.readyResults
  rw [queue]
  exact List.filterMap_congr same

theorem World.ne_of_ready_zero {c : Nat} (absent : w.ready c = 0) : ∀ h ∈ w.readyQueue, h ≠ some c := by
  rintro h member rfl
  exact List.count_eq_zero.mp absent member

/-- A step that leaves the queues, the coroutines and the awaiters alone. -/
theorem InOrder.steady (order : InOrder w) (posted : w'.posted = w.posted) (resumed : w'.resumed = w.resumed)
    (suspensions : w'.suspensions = w.suspensions) (awaiters : w'.awaiters = w.awaiters)
    (ready : w'.readyResults = w.readyResults) (cq : w'.cqResults = w.cqResults) : InOrder w' where
  posted := by rw [posted, resumed, ready, cq, order.posted]
  once b := by rw [resumed, suspensions, awaiters, order.once b]

theorem World.cqResults_congr (same : w'.pc.unprocessed w'.ring.cq = w.pc.unprocessed w.ring.cq) :
    w'.cqResults = w.cqResults := by
  unfold World.cqResults
  rw [same]

theorem World.cqResults_take {i n : Nat} {cqe : Cqe} (here : w.pc = .batch i n) (at_i : w.ring.cq[i]? = some cqe) :
    w.cqResults = cqe.ioResult.toList ++ World.cqResults { w with pc := .batch (i + 1) n } := by
  unfold World.cqResults
  rw [here, Pc.unprocessed_batch at_i, List.filterMap_cons]
  cases cqe.ioResult <;> rfl

/-- A completion that is not an awaiter's is taken. -/
theorem World.cqResults_pass {i n : Nat} {cqe : Cqe} (here : w.pc = .batch i n) (at_i : w.ring.cq[i]? = some cqe)
    (other : ∀ b, cqe.userData ≠ .awaiter b) : World.cqResults { w with pc := .batch (i + 1) n } = w.cqResults := by
  have nothing : cqe.ioResult = none := by
    unfold Cqe.ioResult
    cases data : cqe.userData with
    | awaiter b => exact absurd data (other b)
    | _ => rfl
  rw [World.cqResults_take here at_i, nothing]
  rfl

theorem World.cqResults_complete {k : Nat} {cqe : Cqe} (within : w.pc.Within w.ring.cq.length) :
    World.cqResults { w with ring := w.ring.complete k cqe } = w.cqResults ++ cqe.ioResult.toList := by
  have appended : w.pc.unprocessed (w.ring.complete k cqe).cq = w.pc.unprocessed w.ring.cq ++ [cqe] :=
    within.unprocessed_append
  unfold World.cqResults
  rw [appended, List.filterMap_append]
  cases data : cqe.ioResult <;> simp [data]

theorem World.cqResults_advance {i n : Nat} (within : w.pc.Within w.ring.cq.length) (here : w.pc = .batch i n)
    (ended : n ≤ i) : World.cqResults { w with ring := w.ring.cqAdvance n, pc := .loop } = w.cqResults := by
  rw [here] at within
  obtain rfl : i = n := Nat.le_antisymm within.1 ended
  exact World.cqResults_congr (by rw [here]; rfl)

theorem Rearms.cqResults {watcher : UserData} {pc : Pc} (rearms : Rearms w a watcher pc) :
    World.cqResults { w with pc := pc } = w.cqResults := by
  cases rearms with
  | eventfd here _ at_i data | timerError here _ at_i data => exact World.cqResults_pass here at_i (by simp [data])
  | watch here | startTimers here | timersRun _ here => exact World.cqResults_congr (by rw [here]; rfl)

/-- A coroutine goes from one place to another, neither of them on an awaiter. -/
theorem World.resultOf_switch {c : Nat} {coro : Coro} {h : Handle} (before : ∀ b, w.coros c ≠ .suspended b)
    (after : ∀ b, coro ≠ .suspended b) (coros : w'.coros = update w.coros c coro)
    (awaiters : w'.awaiters = w.awaiters) : w'.resultOf h = w.resultOf h := by
  by_cases mine : h = some c
  · have here : w'.resultOf h = none := World.resultOf_none fun d b same => by
      obtain rfl := Option.some.inj (mine.symm.trans same)
      rw [coros, update_self]
      exact after b
    have there : w.resultOf h = none := World.resultOf_none fun d b same => by
      obtain rfl := Option.some.inj (mine.symm.trans same)
      exact before b
    rw [here, there]
  · refine World.resultOf_congr (fun d same => ?_) fun _ _ _ _ => by rw [awaiters]
    rw [coros, update_of_ne]
    rintro rfl
    exact mine same

theorem InOrder.switch (order : InOrder w) {c : Nat} {coro : Coro} (before : ∀ b, w.coros c ≠ .suspended b)
    (after : ∀ b, coro ≠ .suspended b) (coros : w'.coros = update w.coros c coro)
    (awaiters : w'.awaiters = w.awaiters) (posted : w'.posted = w.posted) (resumed : w'.resumed = w.resumed)
    (suspensions : w'.suspensions = w.suspensions) (queue : w'.readyQueue = w.readyQueue)
    (cq : w'.cqResults = w.cqResults) : InOrder w' :=
  order.steady posted resumed suspensions awaiters
    (World.readyResults_congr queue fun _ _ => World.resultOf_switch before after coros awaiters) cq

/-- A handle without a result leaves `ready_`. -/
theorem World.readyResults_pop {h : Handle} {rest : List Handle} (queue : w.readyQueue = h :: rest)
    (nothing : w.resultOf h = none) (queue' : w'.readyQueue = rest)
    (same : ∀ h ∈ rest, w'.resultOf h = w.resultOf h) : w'.readyResults = w.readyResults := by
  unfold World.readyResults
  rw [queue, queue', List.filterMap_cons, nothing]
  exact List.filterMap_congr same

/-- Handles without a result join `ready_`. -/
theorem World.readyResults_append {more : List Handle} (queue : w'.readyQueue = w.readyQueue ++ more)
    (nothing : ∀ h ∈ more, w.resultOf h = none) (same : ∀ h, w'.resultOf h = w.resultOf h) :
    w'.readyResults = w.readyResults := by
  unfold World.readyResults
  rw [queue, List.filterMap_append, List.filterMap_congr fun h _ => same h, List.filterMap_congr fun h _ => same h,
    List.filterMap_eq_nil_iff.mpr nothing, List.append_nil]

theorem InOrder.drain (order : InOrder w) (tokens : Tokens w) (here : w.pc = .draining) : InOrder w.drain := by
  refine order.steady rfl rfl rfl rfl (World.readyResults_append rfl (fun h member => ?_) fun _ => rfl)
    (World.cqResults_congr (by rw [here]; rfl))
  refine World.resultOf_none fun c b same waits => ?_
  have none_posted := ((tokens.held c).suspended waits).2.2
  have posted : h ∈ w.handles.map Pushed.item := (List.mem_filter.mp member).1
  rw [same] at posted
  exact List.count_eq_zero.mp none_posted posted

/-- `await_resume` hands out the first of the results that wait. -/
theorem InOrder.resumeIo (order : InOrder w) (tokens : Tokens w) {c i : Nat} {awaiter : Awaiter} {rest : List Handle}
    (here : w.pc = .ready) (queue : w.readyQueue = some c :: rest) (waits : w.coros c = .suspended i)
    (mine : w.awaiters i = some awaiter) :
    InOrder (World.handOut { w with readyQueue := rest } c i awaiter.result) := by
  have one := ((tokens.held c).suspended waits).2.1
  rw [World.ready_cons queue c, if_pos rfl] at one
  have elsewhere : ∀ h ∈ rest, h ≠ some c := by
    rintro h member rfl
    have entries : 0 < rest.count (some c) := List.count_pos_iff.mpr member
    omega
  have same : ∀ h ∈ rest, World.resultOf (World.handOut { w with readyQueue := rest } c i awaiter.result) h =
      w.resultOf h := by
    intro h member
    refine World.resultOf_congr (fun d same => ?_) fun d b same there => ?_
    · refine update_of_ne ?_ ..
      rintro rfl
      exact elsewhere h member same
    · refine update_of_ne ?_ ..
      rintro rfl
      exact elsewhere h member (tokens.apart there waits ▸ same)
  have ready : w.readyResults = (i, awaiter.result) ::
      World.readyResults (World.handOut { w with readyQueue := rest } c i awaiter.result) := by
    unfold World.readyResults
    rw [queue, List.filterMap_cons, World.resultOf_suspended waits mine]
    exact congrArg _ (List.filterMap_congr same).symm
  have cq : World.cqResults (World.handOut { w with readyQueue := rest } c i awaiter.result) = w.cqResults :=
    World.cqResults_congr (by rw [here]; rfl)
  refine ⟨?_, fun b => ?_⟩
  · rw [cq]
    refine order.posted.trans ?_
    rw [ready]
    simp only [World.handOut, List.append_assoc, List.cons_append, List.nil_append]
  · have before := order.once b
    simp only [World.handOut, List.map_append, List.map_cons, List.map_nil, List.count_append, List.count_singleton,
      beq_iff_eq, before]
    by_cases same : b = i
    · have bound := (tokens.awaiter i awaiter mine).1
      simp [same, mine, bound]
    · simp [update_of_ne same, Ne.symm same]

/-- The world after an awaiter has taken its completion. -/
def World.stored (w : World) (awaiter : Awaiter) (b : Nat) (cqe : Cqe) : World :=
  { w with
    awaiters := update w.awaiters b (some { awaiter with result := cqe.res, cqeFlags := cqe.flags })
    readyQueue := w.readyQueue ++ [some awaiter.handle] }

theorem Tokens.readyResults_stored (tokens : Tokens w) {b : Nat} {awaiter : Awaiter} (cqe : Cqe)
    (mine : w.awaiters b = some awaiter) (absent : w.ready awaiter.handle = 0) :
    (w.stored awaiter b cqe).readyResults = w.readyResults ++ [(b, cqe.res)] := by
  have waits := (tokens.awaiter b awaiter mine).2
  have old : ∀ h ∈ w.readyQueue, (w.stored awaiter b cqe).resultOf h = w.resultOf h := by
    intro h member
    refine World.resultOf_congr (fun _ _ => rfl) fun d x same there => update_of_ne ?_ ..
    rintro rfl
    exact World.ne_of_ready_zero absent h member (tokens.apart there waits ▸ same)
  have new : (w.stored awaiter b cqe).resultOf (some awaiter.handle) = some (b, cqe.res) :=
    World.resultOf_suspended (w := w.stored awaiter b cqe) waits (update_self ..)
  have queue : (w.stored awaiter b cqe).readyQueue = w.readyQueue ++ [some awaiter.handle] := rfl
  unfold World.readyResults
  rw [queue, List.filterMap_append, List.filterMap_congr old, List.filterMap_cons, new, List.filterMap_nil]

/-- The result of a completion goes to the end of those in `ready_`. -/
theorem InOrder.complete (order : InOrder w) (tokens : Tokens w) {i n b : Nat} {cqe : Cqe} {awaiter : Awaiter}
    (written : List (Nat × Int)) (here : w.pc = .batch i n) (at_i : w.ring.cq[i]? = some cqe)
    (data : cqe.userData = .awaiter b) (mine : w.awaiters b = some awaiter) :
    InOrder { w.stored awaiter b cqe with written := written, pc := .batch (i + 1) n } := by
  obtain ⟨bound, waits⟩ := tokens.awaiter b awaiter mine
  have one := ((tokens.held awaiter.handle).suspended waits).2.1
  rw [World.flying_take (.awaiter b) here at_i, if_pos data] at one
  have ready := tokens.readyResults_stored cqe mine (by omega)
  have taken : w.cqResults = (b, cqe.res) :: World.cqResults { w with pc := .batch (i + 1) n } := by
    have result : cqe.ioResult = some (b, cqe.res) := by simp only [Cqe.ioResult, data]
    rw [World.cqResults_take here at_i, result]
    rfl
  refine ⟨?_, fun x => ?_⟩
  · refine order.posted.trans ?_
    rw [taken]
    show _ = w.resumed ++ (w.stored awaiter b cqe).readyResults ++ World.cqResults { w with pc := .batch (i + 1) n }
    rw [ready]
    simp only [List.append_assoc, List.singleton_append]
  · have before := order.once x
    by_cases same : x = b
    · rw [same] at before ⊢
      simpa [World.stored, mine] using before
    · simpa [World.stored, update_of_ne same] using before

/-- A coroutine that suspends has no result yet. -/
theorem InOrder.suspend (order : InOrder w) (tokens : Tokens w) {op : IoAwaiter} {c : Nat} {rest : List Nat}
    (top : w.stack = c :: rest) :
    InOrder (w.suspendOn (w.ring.push ⟨op.prep, .awaiter w.suspensions⟩) op c rest) := by
  have running := tokens.top_running top
  have absent := ((tokens.held c).busy (Or.inr running)).1
  have fresh := tokens.fresh
  have ready : (w.suspendOn (w.ring.push ⟨op.prep, .awaiter w.suspensions⟩) op c rest).readyResults =
      w.readyResults := by
    refine World.readyResults_congr rfl fun h member => ?_
    refine World.resultOf_congr (fun d same => update_of_ne ?_ ..) fun d b same there => update_of_ne ?_ ..
    · rintro rfl
      exact World.ne_of_ready_zero absent h member same
    · obtain ⟨⟨aw, mine, _⟩, _⟩ := (tokens.held d).suspended there
      exact Nat.ne_of_lt (tokens.awaiter b aw mine).1
  refine ⟨?_, fun b => ?_⟩
  · rw [ready]
    exact order.posted
  · have before := order.once b
    by_cases same : b = w.suspensions
    · rw [same] at before ⊢
      simpa [World.suspendOn] using before
    · have newer : b < w.suspensions + 1 ↔ b < w.suspensions := by omega
      simpa [World.suspendOn, update_of_ne same, newer] using before

theorem World.resultOf_postable {h : Handle} (postable : w.postable h = true) : w.resultOf h = none := by
  refine World.resultOf_none fun c b same => ?_
  rw [same] at postable
  rcases World.postable_cases postable with ended | ⟨waits, _⟩
  · simp [ended]
  · simp [waits]

theorem Move.inOrder (move : Move w a w') (within : w.pc.Within w.ring.cq.length) (met : orderly w a = true)
    (alive : w'.fault = none) (tokens : Tokens w) (order : InOrder w) : InOrder w' := by
  cases move with
  | goto goto => exact order.steady rfl rfl rfl rfl rfl (World.cqResults_congr (goto.unprocessed _))
  | rearm rearms => exact order.steady rfl rfl rfl rfl rfl rearms.cqResults
  | rearmFull rearms => exact order.steady rfl rfl rfl rfl rfl rearms.cqResults
  | drain here => exact order.drain tokens here
  | store here | runTask here => exact order.steady rfl rfl rfl rfl rfl (World.cqResults_congr (by rw [here]; rfl))
  | @skip h rest here queue ended =>
    have nothing : w.resultOf h = none := World.resultOf_none fun c b same waits => by
      rw [same] at ended
      simp [World.resumable, waits] at ended
    exact order.steady rfl rfl rfl rfl (World.readyResults_pop queue nothing rfl fun _ _ => rfl) rfl
  | resumeIo here queue waits mine => exact order.resumeIo tokens here queue waits mine
  | resumeFreed | resumeBad | completionFreed | suspendNull => cases alive
  | @resumeParked c rest here queue waits =>
    have nothing : w.resultOf (some c) = none := World.resultOf_none fun d b same => by
      obtain rfl := Option.some.inj same
      simp [waits]
    refine order.steady rfl rfl rfl rfl (World.readyResults_pop queue nothing rfl fun _ _ => ?_)
      (World.cqResults_congr (by rw [here]; rfl))
    exact World.resultOf_switch (by simp [waits]) (by simp) rfl rfl
  | submit here =>
    exact order.steady rfl rfl rfl rfl rfl (World.cqResults_congr (by rw [here, Ring.cq_submit]; rfl))
  | null here _ at_i data | timers here _ at_i data =>
    exact order.steady rfl rfl rfl rfl rfl (World.cqResults_pass here at_i (by simp [data]))
  | completion here _ at_i data mine =>
    rw [if_pos (tokens.resumable mine)]
    exact order.complete tokens _ here at_i data mine
  | advance here ended => exact order.steady rfl rfl rfl rfl rfl (World.cqResults_advance within here ended)
  | spawn _ fresh => exact order.switch (by simp [fresh]) (by simp) rfl rfl rfl rfl rfl rfl rfl
  | suspend _ top => exact order.suspend tokens top
  | park _ top | finish _ top =>
    exact order.switch (by simp [tokens.top_running top]) (by simp) rfl rfl rfl rfl rfl rfl rfl
  | @selfPost h =>
    refine order.steady rfl rfl rfl rfl (World.readyResults_append rfl (fun h' member => ?_) fun _ => rfl) rfl
    rw [List.mem_singleton.mp member]
    exact World.resultOf_postable met
  | selfStop => exact order.steady rfl rfl rfl rfl rfl (World.cqResults_congr (by rw [Ring.cq_submit]; rfl))
  | wakeRead => exact order.steady rfl rfl rfl rfl rfl ((World.cqResults_complete within).trans (List.append_nil _))
  | otherDone _ other =>
    refine order.steady rfl rfl rfl rfl rfl ((World.cqResults_complete within).trans ?_)
    rcases other with data | data <;> simp [Cqe.ioResult, data]
  | @ioDone k b res flags _ _ _ =>
    refine ⟨?_, order.once⟩
    show w.posted ++ [(b, res)] = w.resumed ++ w.readyResults ++
      World.cqResults { w with ring := w.ring.complete k ⟨.awaiter b, res, flags⟩ }
    rw [World.cqResults_complete within, order.posted, List.append_assoc]
    simp only [Cqe.ioResult, Option.toList_some]
  | _ => exact ⟨order.posted, order.once⟩

/-- An awaiter has as many results in a queue as its coroutine has entries. -/
theorem count_results_le {result : Handle → Option (Nat × Int)} {b : Nat} {x : Handle} (queue : List Handle)
    (own : ∀ h ∈ queue, ∀ r, result h = some r → r.1 = b → h = x) :
    ((queue.filterMap result).map Prod.fst).count b ≤ queue.count x := by
  induction queue with
  | nil => exact Nat.le_refl 0
  | cons h rest ih =>
    have later := ih fun h' member => own h' (List.mem_cons_of_mem _ member)
    rw [List.filterMap_cons, List.count_cons]
    cases here : result h with
    | none =>
      dsimp only
      omega
    | some r =>
      rw [List.map_cons, List.count_cons]
      by_cases hit : r.1 = b
      · rw [own h List.mem_cons_self r here hit]
        simp only [hit, beq_self_eq_true, if_true]
        omega
      · simp only [beq_iff_eq, hit, if_false]
        omega

theorem World.resultOf_some {h : Handle} {r : Nat × Int} (result : w.resultOf h = some r) :
    ∃ c aw, h = some c ∧ w.coros c = .suspended r.1 ∧ w.awaiters r.1 = some aw := by
  cases h with
  | none => cases result
  | some c =>
    simp only [World.resultOf] at result
    split at result
    next b here =>
      obtain ⟨aw, mine, rfl⟩ := Option.map_eq_some_iff.mp result
      exact ⟨c, aw, rfl, here, mine⟩
    next => cases result

theorem World.count_cqResults (b : Nat) : (w.cqResults.map Prod.fst).count b ≤ w.flying (.awaiter b) := by
  have own : ∀ (l : List Cqe), ((l.filterMap Cqe.ioResult).map Prod.fst).count b ≤
      (l.map Cqe.userData).count (.awaiter b) := by
    intro l
    induction l with
    | nil => exact Nat.le_refl 0
    | cons cqe rest ih =>
      rw [List.filterMap_cons, List.map_cons, List.count_cons]
      cases data : cqe.userData <;> simp [Cqe.ioResult, data, List.count_cons] <;> omega
  have taken := own (w.pc.unprocessed w.ring.cq)
  unfold World.cqResults World.flying
  omega

/-- The kernel posts one result for each suspension at most. -/
theorem InOrder.posted_nodup (order : InOrder w) (tokens : Tokens w) : (w.posted.map Prod.fst).Nodup := by
  rw [List.nodup_iff_count_le_one]
  intro b
  have once := order.once b
  have in_cq := w.count_cqResults b
  rw [order.posted, List.map_append, List.map_append, List.count_append, List.count_append]
  cases here : w.awaiters b with
  | none =>
    have gone := tokens.freed b here
    have not_ready : ((w.readyResults).map Prod.fst).count b = 0 := by
      refine List.count_eq_zero.mpr fun member => ?_
      obtain ⟨r, result, rfl⟩ := List.mem_map.mp member
      obtain ⟨h, _, carries⟩ := List.mem_filterMap.mp result
      obtain ⟨_, aw, _, _, mine⟩ := World.resultOf_some carries
      rw [here] at mine
      cases mine
    split at once <;> omega
  | some aw =>
    have waits := (tokens.awaiter b aw here).2
    have one := ((tokens.held aw.handle).suspended waits).2.1
    have in_ready : ((w.readyResults).map Prod.fst).count b ≤ w.ready aw.handle := by
      refine count_results_le w.readyQueue fun h _ r carries same => ?_
      obtain ⟨c, _, mine, there, _⟩ := World.resultOf_some carries
      rw [same] at there
      rw [mine, tokens.apart there waits]
    rw [if_neg (by simp [here])] at once
    omega

/-- A suspension ends by the resumption of its coroutine and in no other way. -/
theorem Move.ends (move : Move w a w') (tokens : Tokens w) {c b : Nat} (here : w.coros c = .suspended b) :
    w'.coros c = .suspended b ∨ w'.coros c = .running ∧ ∃ res, w'.resumed = w.resumed ++ [(b, res)] := by
  cases move with
  | @resumeIo d i awaiter _ _ _ waits =>
    by_cases same : c = d
    · rw [same, waits] at here
      cases here
      rw [same]
      exact Or.inr ⟨update_self .., awaiter.result, rfl⟩
    · exact Or.inl ((update_of_ne same ..).trans here)
  | @resumeParked d _ _ _ waits =>
    have other : c ≠ d := by
      rintro rfl
      simp [waits] at here
    exact Or.inl ((update_of_ne other ..).trans here)
  | @spawn d _ fresh =>
    have other : c ≠ d := by
      rintro rfl
      simp [fresh] at here
    exact Or.inl ((update_of_ne other ..).trans here)
  | @suspend _ d _ _ top | @park d _ _ top | @finish d _ _ top =>
    have other : c ≠ d := by
      rintro rfl
      simp [tokens.top_running top] at here
    exact Or.inl ((update_of_ne other ..).trans here)
  | _ => exact Or.inl here

/-- What is promised to the coroutines that suspend on awaiters. -/
structure ExactlyOnce (w : World) : Prop where
  fault : w.fault = none
  token : ∀ c b, w.coros c = .suspended b →
    w.ring.tagged (.awaiter b) + ((w.pc.unprocessed w.ring.cq).map Cqe.userData).count (.awaiter b) +
      w.readyQueue.count (some c) = 1
  outcome : ∀ b, b < w.suspensions →
    (w.resumed.map Prod.fst).count b = 1 ∧ (∀ c, w.coros c ≠ .suspended b) ∨
      (w.resumed.map Prod.fst).count b = 0 ∧ ∃ c, w.coros c = .suspended b
  order : w.posted = w.resumed ++ w.readyResults ++ w.cqResults
  posted : (w.posted.map Prod.fst).Nodup

/-- What holds in every state of an orderly run. -/
structure LoopInv (w : World) : Prop where
  fault : w.fault = none
  within : w.pc.Within w.ring.cq.length
  tokens : Tokens w
  order : InOrder w

theorem LoopInv.start (entries : Nat) (sqpoll : Bool) : LoopInv (start entries sqpoll) where
  fault := rfl
  within := trivial
  tokens := .start entries sqpoll
  order := ⟨rfl, fun _ => rfl⟩

theorem LoopInv.step (inv : LoopInv w) (met : orderly w a = true) (move : step w a = some w') : LoopInv w' := by
  have moved := (step_move move).2
  have alive := moved.alive met inv.tokens inv.fault
  exact ⟨alive, moved.within inv.within, moved.tokens inv.within met alive inv.tokens,
    moved.inOrder inv.within met alive inv.tokens inv.order⟩

theorem LoopInv.exactlyOnce (inv : LoopInv w) : ExactlyOnce w where
  fault := inv.fault
  token c b here := ((inv.tokens.held c).suspended here).2.1
  outcome b bound := by
    have once := inv.order.once b
    cases here : w.awaiters b with
    | none =>
      rw [if_pos ⟨bound, here⟩] at once
      refine Or.inl ⟨once, fun c waits => ?_⟩
      obtain ⟨⟨aw, mine, _⟩, _⟩ := (inv.tokens.held c).suspended waits
      rw [here] at mine
      cases mine
    | some aw =>
      rw [if_neg (by simp [here])] at once
      exact Or.inr ⟨once, aw.handle, (inv.tokens.awaiter b aw here).2⟩
  order := inv.order.posted
  posted := inv.order.posted_nodup inv.tokens

/-- In every run in which suspensions get their SQEs, each suspended coroutine
has one token, is resumed once and with the result of its own completion, and
results are handed out in the order in which the kernel posted them. -/
theorem resumed_exactly_once {entries : Nat} {sqpoll : Bool} {acts : List Act}
    (reach : RunWhile step (fun w a => orderly w a = true) (start entries sqpoll) acts w) :
    ExactlyOnce w ∧
    ∀ a w' c b, step w a = some w' → w.coros c = .suspended b →
      w'.coros c = .suspended b ∨ w'.coros c = .running ∧ ∃ res, w'.resumed = w.resumed ++ [(b, res)] := by
  have inv : LoopInv w := reach.invariant (.start entries sqpoll) fun held met move => held.step met move
  exact ⟨inv.exactlyOnce, fun a w' c b move here => (step_move move).2.ends inv.tokens here⟩

/-- Two coroutines suspend; the kernel completes the second one first. -/
def reversedActs : List Act :=
  [.queueBootTask 0, .next, .next, .next, .next, .next, .next, .next, .spawn 0, .suspend (.shutdown 5 1), .spawn 1,
    .suspend (.recvIntoBuffer 6 1024), .ret, .next, .next, .next, .next, .complete 3 512 0, .complete 2 0 0, .next,
    .next, .next, .next, .next, .next, .next, .next]

def reversedWorld : World := after step (start 4 false) reversedActs

theorem reversed_exactly_once :
    (reversedWorld.resumed = [(1, 512)] ∧ reversedWorld.posted = [(1, 512), (0, 0)] ∧
      reversedWorld.coros 0 = .suspended 0) ∧
    ExactlyOnce reversedWorld := by
  have reach : RunWhile step (fun w a => orderly w a = true) (start 4 false) reversedActs reversedWorld :=
    guarded_run (run_eq_some rfl)
  exact ⟨⟨rfl, rfl, rfl⟩, (resumed_exactly_once reach).1⟩

end CoroNet.Scheduler
