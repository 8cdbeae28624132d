import CoroNet.Timer.Discipline

namespace CoroNet.Timers

open Function Transition

/-- The timer interface of a scheduler. -/
inductive Call
  | runAfter (delay : Int) (callback : Nat)
  | runEvery (interval : Int) (callback : Nat)
  | cancel (id : TimerId)

/-- What the loop's thread does for it. -/
def Call.act (now now' : Int) (addr : Nat) : Call → Act
  | .runAfter delay callback => .add callback delay now now' addr
  | .runEvery interval callback => .addPeriodic callback interval now now' addr
  | .cancel id => .cancel id now

/-- How long the first callback of the timer is to wait. -/
def Call.delay : Call → Option Int
  | .runAfter delay _ => some delay
  | .runEvery interval _ => some interval
  | .cancel _ => none

/-- A call by another thread, with the clock at that time. -/
structure Posted where
  call : Call
  now : Int

/-- A posted call that the loop has performed: what it did, when, and the
number of timers created before. -/
structure Performed where
  posted : Posted
  now : Int
  act : Act
  block : Nat

/-- The timers of a scheduler: its queue, the tasks of `cross_` that other
threads have posted, and those that `drain_cross_queue` has taken and not yet
executed; then all calls posted and performed so far, and all that has been
done to the queue. -/
structure Scheduled where
  queue : History := {}
  cross : List Posted := []
  drained : List Posted := []
  posted : List Posted := []
  performed : List Performed := []
  acts : List Act := []

namespace Scheduled

/-- Another thread calls; the loop takes the tasks, executes the first of
them, or does something else with its queue, which includes the calls from its
own thread. -/
inductive Step
  | post (call : Call) (now : Int)
  | drain
  | perform (now now' : Int) (addr : Nat)
  | queue (a : Act)

/-- The loop is not inside `handle_expired`. -/
def outside (s : Scheduled) : Bool := s.queue.world.activation matches .idle

/-- The tasks taken are executed before the completions are looked at. -/
def due (s : Scheduled) : Act → Bool
  | .expire .. | .destroy => s.drained.isEmpty
  | _ => true

/-- A task is executed later than it is posted. -/
def step (s : Scheduled) : Step → Option Scheduled
  | .post call now => some { s with cross := s.cross ++ [⟨call, now⟩], posted := s.posted ++ [⟨call, now⟩] }
  | .drain => if s.outside ∧ s.drained = [] then some { s with cross := [], drained := s.cross } else none
  | .perform now now' addr =>
    match s.drained with
    | [] => none
    | p :: rest =>
      if s.outside ∧ p.now ≤ now then
        (s.queue.step (p.call.act now now' addr)).map fun queue =>
          { s with
            queue := queue
            drained := rest
            performed := s.performed ++ [⟨p, now, p.call.act now now' addr, s.queue.world.blocks⟩]
            acts := s.acts ++ [p.call.act now now' addr] }
      else none
  | .queue a =>
    if s.due a then (s.queue.step a).map fun queue => { s with queue := queue, acts := s.acts ++ [a] } else none

/-- The expirations that the step computes are 64-bit values. -/
def fits (s : Scheduled) : Step → Bool
  | .perform now now' addr => s.drained.head?.all fun p => (p.call.act now now' addr).fits
  | .queue a => a.fits
  | _ => true

end Scheduled

variable {s s' : Scheduled} {h h' : History} {a : Act} {b : Nat}

/-- What a step can be. -/
inductive Goes (s : Scheduled) : Scheduled.Step → Scheduled → Prop
  | post {call : Call} {now : Int} :
      Goes s (.post call now) { s with cross := s.cross ++ [⟨call, now⟩], posted := s.posted ++ [⟨call, now⟩] }
  | drain : s.drained = [] → Goes s .drain { s with cross := [], drained := s.cross }
  | perform {now now' : Int} {addr : Nat} {p : Posted} {rest : List Posted} {queue : History} :
      s.drained = p :: rest → p.now ≤ now → s.queue.step (p.call.act now now' addr) = some queue →
      Goes s (.perform now now' addr)
        { s with
          queue := queue
          drained := rest
          performed := s.performed ++ [⟨p, now, p.call.act now now' addr, s.queue.world.blocks⟩]
          acts := s.acts ++ [p.call.act now now' addr] }
  | queue {a : Act} {queue : History} : s.queue.step a = some queue →
      Goes s (.queue a) { s with queue := queue, acts := s.acts ++ [a] }

theorem step_goes {x : Scheduled.Step} (move : s.step x = some s') : Goes s x s' := by
  cases x with
  | post call now =>
    cases Option.some.inj move
    exact .post
  | drain =>
    obtain ⟨⟨_, taken⟩, moved⟩ := Option.ite_none_right_eq_some.mp move
    cases Option.some.inj moved
    exact .drain taken
  | perform now now' addr =>
    unfold Scheduled.step at move
    cases waiting : s.drained with
    | nil => simp [waiting] at move
    | cons p rest =>
      simp only [waiting] at move
      obtain ⟨⟨_, late⟩, moved⟩ := Option.ite_none_right_eq_some.mp move
      obtain ⟨queue, done, rfl⟩ := Option.map_eq_some_iff.mp moved
      exact .perform waiting late done
  | queue a =>
    obtain ⟨_, moved⟩ := Option.ite_none_right_eq_some.mp move
    obtain ⟨queue, done, rfl⟩ := Option.map_eq_some_iff.mp moved
    exact .queue done

/-- What was asked of a timer stays. -/
theorem History.requests_stay (inv : Inv h.world) (move : h.step a = some h') (old : b < h.world.blocks) :
    h'.requests b = h.requests b ∧ h.world.blocks ≤ h'.world.blocks := by
  obtain ⟨moved, same⟩ := History.step_record move
  have blocks := (step_move inv moved).blocks
  refine ⟨?_, by omega⟩
  rw [same]
  cases a with
  | add | addPeriodic => exact update_of_ne (Nat.ne_of_lt old) _ _
  | _ => rfl

/-- What the queue has been asked for a call that creates a timer. -/
theorem Call.requested {call : Call} {now now' delay : Int} {addr : Nat} (inv : Inv h.world)
    (move : h.step (call.act now now' addr) = some h') (asked : call.delay = some delay) :
    (h'.requests h.world.blocks).due = now + delay ∧ h.world.blocks < h'.world.blocks := by
  obtain ⟨moved, same⟩ := History.step_record move
  have blocks := (step_move inv moved).blocks
  rw [same]
  cases call with
  | runAfter | runEvery =>
    cases asked
    exact ⟨by simp [Call.act, History.record], by simp [blocks, Call.act, Act.creates]⟩
  | cancel => cases asked

/-- What holds at all times. -/
structure InOrder (s : Scheduled) : Prop where
  kept : Kept s.queue
  order : s.posted = s.performed.map Performed.posted ++ s.drained ++ s.cross
  within : (s.performed.map Performed.act).Sublist s.acts
  asked : ∀ p ∈ s.performed, ∀ delay, p.posted.call.delay = some delay → p.block < s.queue.world.blocks ∧
    p.posted.now + delay ≤ (s.queue.requests p.block).due

theorem InOrder.start : InOrder {} := ⟨.start, rfl, .slnil, nofun⟩

/-- What the loop does with its queue keeps what was asked for. -/
theorem InOrder.later (inOrder : InOrder s) (move : s.queue.step a = some h') {p : Performed}
    (member : p ∈ s.performed) {delay : Int} (asked : p.posted.call.delay = some delay) :
    p.block < h'.world.blocks ∧ p.posted.now + delay ≤ (h'.requests p.block).due := by
  obtain ⟨old, due⟩ := inOrder.asked p member delay asked
  obtain ⟨same, more⟩ := History.requests_stay inOrder.kept.inv move old
  exact ⟨by omega, by rw [same]; exact due⟩

theorem Goes.inOrder {x : Scheduled.Step} (goes : Goes s x s') (fits : s.fits x = true) (inOrder : InOrder s) :
    InOrder s' := by
  cases goes with
  | post =>
    refine ⟨inOrder.kept, ?_, inOrder.within, inOrder.asked⟩
    rw [inOrder.order]
    simp
  | drain taken =>
    refine ⟨inOrder.kept, ?_, inOrder.within, inOrder.asked⟩
    rw [inOrder.order, taken]
    simp
  | @perform now now' addr p rest queue waiting late done =>
    have small : (p.call.act now now' addr).fits = true := by simpa [Scheduled.fits, waiting] using fits
    refine ⟨inOrder.kept.step small done, ?_, ?_, fun q member delay asked => ?_⟩
    · rw [inOrder.order, waiting]
      simp
    · rw [List.map_append]
      exact inOrder.within.append (.refl _)
    · rcases List.mem_append.mp member with earlier | last
      · exact inOrder.later done earlier asked
      · cases List.mem_singleton.mp last
        obtain ⟨due, made⟩ := Call.requested inOrder.kept.inv done asked
        exact ⟨made, due ▸ Int.add_le_add_right late delay⟩
  | queue done =>
    refine ⟨inOrder.kept.step fits done, inOrder.order, ?_, fun q member delay asked => inOrder.later done member asked⟩
    exact inOrder.within.trans (List.sublist_append_left _ _)

/-- What has been done to the queue is a run of the queue alone. -/
theorem run_queue {steps : List Scheduled.Step} (reach : RunWhile Scheduled.step (fun s x => s.fits x = true) {} steps s) :
    RunWhile History.step (fun _ a => a.fits = true) {} s.acts s.queue := by
  refine reach.invariant (P := fun s => RunWhile History.step (fun _ a => a.fits = true) {} s.acts s.queue) .start
    fun run fits move => ?_
  cases step_goes move with
  | post | drain => exact run
  | perform waiting _ done => exact run.next (by simpa [Scheduled.fits, waiting] using fits) done
  | queue done => exact run.next fits done

/-- However calls from other threads come between what the loop does: its queue
sees one of its own runs, in which these calls are performed once each and in
the order they were posted, and no callback starts before the time counted
from the call. -/
theorem posted_in_order {steps : List Scheduled.Step}
    (reach : RunWhile Scheduled.step (fun s x => s.fits x = true) {} steps s) :
    RunWhile History.step (fun _ a => a.fits = true) {} s.acts s.queue ∧
      s.posted = s.performed.map Performed.posted ++ s.drained ++ s.cross ∧
      (s.performed.map Performed.act).Sublist s.acts ∧
      ∀ p ∈ s.performed, ∀ delay, p.posted.call.delay = some delay →
        ∀ g ∈ s.queue.log, g.block = p.block → p.posted.now + delay ≤ g.batch.now := by
  have inOrder : InOrder s := reach.invariant .start fun inOrder fits move => (step_goes move).inOrder fits inOrder
  refine ⟨run_queue reach, inOrder.order, inOrder.within, fun p member delay asked g called same => ?_⟩
  have due := (inOrder.asked p member delay asked).2
  have started := inOrder.kept.asked called
  rw [same] at started
  omega

/-- Another thread asks for a timer, and for the cancellation of the one that
the loop has created; the loop calls the first. -/
def crossing : List Scheduled.Step :=
  [.queue (.add 1 50 0 0 16), .post (.runAfter 5 2) 3, .drain, .post (.cancel ⟨some ⟨16, 0⟩, 1⟩) 4, .perform 6 6 32,
    .drain, .perform 7 7 0, .queue (.fire 11), .queue (.expire true 12), .queue .call]

theorem crossing_not_early : ∃ s, RunWhile Scheduled.step (fun s x => s.fits x = true) {} crossing s ∧
    s.queue.world.started = [1] ∧ ∀ g ∈ s.queue.log, g.block = 1 → 3 + 5 ≤ g.batch.now := by
  have reach : RunWhile Scheduled.step (fun s x => s.fits x = true) {} crossing (after Scheduled.step {} crossing) :=
    guarded_run (run_eq_some rfl)
  exact ⟨_, reach, rfl, (posted_in_order reach).2.2.2 _ (List.mem_cons_self ..) 5 rfl⟩

end CoroNet.Timers
