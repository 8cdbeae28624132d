import CoroNet.Timer.Discipline
import CoroNet.General.Spacing

namespace CoroNet.Timers

open Spacing Transition

/-- The callbacks of the timer that have been started. -/
def History.callsOf (h : History) (b : Nat) : List Firing := h.log.filter fun f => f.block = b

/-- A one-shot timer is called at most once, and a periodic one, however long
its callbacks and the batches take, at most once for each interval since the
time asked for. -/
theorem call_rate_bounded {acts : List Act} {h : History} {b : Nat}
    (reach : RunWhile History.step (fun _ a => a.fits = true) {} acts h)
    (small : ∀ f ∈ h.callsOf b, fits64 (f.batch.now + (h.requests b).interval) = true) :
    ((h.requests b).interval ≤ 0 → (h.callsOf b).length ≤ 1) ∧
      (h.callsOf b ≠ [] → (h.requests b).due + ((h.callsOf b).length - 1) * (h.requests b).interval ≤ h.world.clock) := by
  have kept : Kept h := reach.invariant Kept.start fun kept fits move => kept.step fits move
  have mine : ∀ {f}, f ∈ h.callsOf b → f ∈ h.log ∧ f.block = b := fun member => by
    simpa [History.callsOf] using member
  have fires : h.log.Pairwise fun f g => f.block = g.block → 0 < (h.requests g.block).interval ∧
      (fits64 (f.batch.now + (h.requests g.block).interval) = true →
        f.batch.now + (h.requests g.block).interval ≤ g.batch.now) := by
    refine pairwise_of_splits fun before g after split f member same => ?_
    have discipline := kept.fires before g after split
    exact ⟨discipline.periodic f member same, discipline.spacing f member same⟩
  have calls : (h.callsOf b).Pairwise fun f g => f.block = g.block → 0 < (h.requests g.block).interval ∧
      (fits64 (f.batch.now + (h.requests g.block).interval) = true →
        f.batch.now + (h.requests g.block).interval ≤ g.batch.now) := fires.filter _
  refine ⟨fun once => ?_, fun some_call => ?_⟩
  · by_contra more
    obtain ⟨f, g, rest, same⟩ : ∃ f g rest, h.callsOf b = f :: g :: rest := by
      cases first : h.callsOf b with
      | nil => simp [first] at more
      | cons f tail =>
        cases second : tail with
        | nil => simp [first, second] at more
        | cons g rest => exact ⟨f, g, rest, rfl⟩
    have second := mine (f := g) (by simp [same])
    have first := mine (f := f) (by simp [same])
    rw [same] at calls
    have again := ((List.pairwise_cons.mp calls).1 g List.mem_cons_self (first.2.trans second.2.symm)).1
    rw [second.2] at again
    omega
  · have spaced : ((h.callsOf b).map fun f => f.batch.now).Pairwise fun s t => s + (h.requests b).interval ≤ t := by
      refine List.pairwise_map.mpr (calls.imp_of_mem fun {f g} before after apart => ?_)
      obtain ⟨_, later⟩ := apart ((mine before).2.trans (mine after).2.symm)
      rw [(mine after).2] at later
      exact later (small f before)
    have begins : ∀ t ∈ (h.callsOf b).map fun f => f.batch.now, (h.requests b).due ≤ t := by
      intro t member
      obtain ⟨f, call, rfl⟩ := List.mem_map.mp member
      have asked := kept.asked (mine call).1
      rwa [(mine call).2] at asked
    have ends : ∀ t ∈ (h.callsOf b).map fun f => f.batch.now, t ≤ h.world.clock := by
      intro t member
      obtain ⟨f, call, rfl⟩ := List.mem_map.mp member
      exact (kept.known f (mine call).1).2.2
    simpa using spaced_length spaced begins ends (by simpa using some_call)

/-- When a batch is over, it has called every timer that was pending and due
when it began, whatever the callbacks added, cancelled or threw. -/
theorem batches_complete {acts : List Act} {h h' : History} {now : Int} (reach : Run History.step {} acts h)
    (move : h.step (.finish now) = some h') {e : Entry} (pending : e ∈ h.batch.pending) (due : e.time ≤ h.batch.now) :
    ∃ f ∈ h.log, f.batch.number = h.batch.number ∧ f.block = e.timer.block ∧ f.expiration = e.time := by
  obtain ⟨_, kept⟩ := run_kept reach
  have moved := step_move kept.inv (History.step_record move).1
  generalize h'.world = w at moved
  cases moved with
  | finish control =>
    obtain ⟨_, _, _, old, called, waiting, _, rest, calling⟩ := kept.calling _ _ _ _ control
    have none_waiting : waiting = [] := List.map_eq_nil_iff.mp rest.symm
    have popped := calling.due e pending due
    rw [none_waiting, List.append_nil] at popped
    refine ⟨h.batch.call e, ?_, rfl, rfl, rfl⟩
    have log : h.log = old ++ called.map h.batch.call := calling.log
    rw [log]
    exact List.mem_append_right _ (List.mem_map_of_mem popped)
  | insert kind => rcases kind with ⟨same, _⟩ | ⟨same, _⟩ <;> cases same

/-- A periodic timer, and a one-shot timer that the first callback cancels in vain. -/
def twoCalls : List Act :=
  [.addPeriodic 1 5 0 0 16, .add 2 6 0 0 32, .expire false 7, .call, .cancel ⟨some ⟨32, 1⟩, 2⟩ 7, .ret false, .call,
    .ret true, .finish 8, .expire false 12, .call, .ret false]

theorem two_calls_rate : ∃ h, RunWhile History.step (fun _ a => a.fits = true) {} twoCalls h ∧
    5 + (((h.callsOf 0).length : Int) - 1) * 5 ≤ h.world.clock := by
  have reach : RunWhile History.step (fun _ a => a.fits = true) {} twoCalls (after History.step {} twoCalls) :=
    guarded_run (run_eq_some rfl)
  exact ⟨_, reach, (call_rate_bounded (b := 0) reach (by decide)).2 (by decide)⟩

theorem two_calls_complete : ∃ h, Run History.step {} (twoCalls.take 8) h ∧
    ∃ f ∈ h.log, f.batch.number = h.batch.number ∧ f.block = 1 ∧ f.expiration = 6 := by
  have reach : Run History.step {} (twoCalls.take 8) (after History.step {} (twoCalls.take 8)) := run_eq_some rfl
  have finish : (after History.step {} (twoCalls.take 8)).step (.finish 8) =
      some (after History.step {} (twoCalls.take 9)) := rfl
  have pending : (⟨6, ⟨32, 1⟩⟩ : Entry) ∈ (after History.step {} (twoCalls.take 8)).batch.pending :=
    List.mem_cons_of_mem _ (List.mem_singleton_self _)
  exact ⟨_, reach, batches_complete reach finish pending (by decide)⟩

end CoroNet.Timers
