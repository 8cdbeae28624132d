import CoroNet.Scheduler.Moves
import Mathlib.Data.List.Perm.Basic

namespace CoroNet.Scheduler

open Function Transition

variable {w w' : World} {a : Act} {data : UserData}

namespace Ring

variable {r r' : Ring} {sqe : Sqe} {cqe : Cqe}

/-- The SQEs that are filled and whose operation has not completed. -/
def sqes (r : Ring) : List Sqe := r.queued ++ r.unconsumed ++ r.inflight

/-- How many of them carry a `user_data`. -/
def tagged (r : Ring) (data : UserData) : Nat := (r.sqes.map Sqe.userData).count data

theorem tagged_push : (r.push sqe).tagged data
    = r.tagged data + if sqe.userData = data then 1 else 0 := by
  simp only [tagged, sqes, push, List.map_append, List.count_append, List.map_cons, List.map_nil, List.count_singleton,
    beq_iff_eq]
  omega

theorem tagged_submit : r.submit.tagged data = r.tagged data := by
  unfold submit
  split <;> simp only [tagged, sqes, List.map_append, List.count_append, List.map_nil, List.count_nil] <;> omega

theorem tagged_consume {rest : List Sqe} (oldest : r.unconsumed = sqe :: rest) :
    tagged { r with unconsumed := rest, inflight := r.inflight ++ [sqe] } data = r.tagged data := by
  simp only [tagged, sqes, oldest, List.map_append, List.count_append, List.map_cons, List.map_nil,
    List.count_cons, List.count_nil]
  omega

theorem tagged_complete {k : Nat} (cqe : Cqe) (data : UserData) (running : r.inflight[k]? = some sqe) :
    (r.complete k cqe).tagged data + (if sqe.userData = data then 1 else 0) = r.tagged data := by
  obtain ⟨bound, rfl⟩ := List.getElem?_eq_some_iff.mp running
  have taken := (List.getElem_cons_eraseIdx_perm bound).map Sqe.userData |>.count_eq data
  simp only [List.map_cons, List.count_cons, beq_iff_eq] at taken
  simp only [tagged, sqes, complete, List.map_append, List.count_append]
  omega

@[simp] theorem cq_push : (r.push sqe).cq = r.cq := rfl

@[simp] theorem cq_submit : r.submit.cq = r.cq := by
  unfold submit
  split <;> rfl

theorem queued_submit : r.submit.queued = [] := by
  unfold submit
  split <;> rfl

end Ring

/-- The completions the loop has not taken yet; the one whose timers run counts as taken. -/
def Pc.unprocessed : Pc → List Cqe → List Cqe
  | .batch i _, cq => cq.drop i
  | .inTimer i _, cq => cq.drop (i + 1)
  | _, cq => cq

/-- A batch lies within the completion queue. -/
def Pc.Within : Pc → Nat → Prop
  | .batch i n, length => i ≤ n ∧ n ≤ length
  | .inTimer i n, length => i < n ∧ n ≤ length
  | _, _ => True

/-- How often a `user_data` is in the ring: in SQEs whose operation has not
completed and in completions that have not been taken. -/
def World.flying (w : World) (data : UserData) : Nat :=
  w.ring.tagged data + ((w.pc.unprocessed w.ring.cq).map Cqe.userData).count data

theorem Pc.Within.grow {pc : Pc} {length length' : Nat} (within : pc.Within length) (le : length ≤ length') :
    pc.Within length' := by
  cases pc with
  | batch i n => exact ⟨within.1, Nat.le_trans within.2 le⟩
  | inTimer i n => exact ⟨within.1, Nat.le_trans within.2 le⟩
  | _ => trivial

theorem Pc.Within.unprocessed_append {pc : Pc} {cq : List Cqe} {cqe : Cqe} (within : pc.Within cq.length) :
    pc.unprocessed (cq ++ [cqe]) = pc.unprocessed cq ++ [cqe] := by
  cases pc with
  | batch i n => exact List.drop_append_of_le_length (Nat.le_trans within.1 within.2)
  | inTimer i n => exact List.drop_append_of_le_length (Nat.lt_of_lt_of_le within.1 within.2)
  | _ => rfl

theorem Pc.unprocessed_batch {cq : List Cqe} {i : Nat} {cqe : Cqe} (at_i : cq[i]? = some cqe) (n : Nat) :
    (Pc.batch i n).unprocessed cq = cqe :: (Pc.batch (i + 1) n).unprocessed cq := by
  obtain ⟨bound, rfl⟩ := List.getElem?_eq_some_iff.mp at_i
  exact List.drop_eq_getElem_cons bound

theorem Goto.unprocessed {pc : Pc} (goto : Goto w a pc) (cq : List Cqe) :
    pc.unprocessed cq = w.pc.unprocessed cq := by
  cases goto <;> simp only [Pc.unprocessed, *] <;> rfl

theorem Goto.within {pc : Pc} (goto : Goto w a pc) : pc.Within w.ring.cq.length := by
  cases goto with
  | wakeUp | interrupt => exact ⟨Nat.zero_le _, Nat.min_le_right ..⟩
  | _ => trivial

theorem Rearms.within {watcher : UserData} {pc : Pc} (rearms : Rearms w a watcher pc)
    (within : w.pc.Within w.ring.cq.length) : pc.Within w.ring.cq.length := by
  cases rearms with
  | watch | startTimers => trivial
  | eventfd here less | timerError here less =>
    rw [here] at within
    exact ⟨less, within.2⟩
  | timersRun _ here =>
    rw [here] at within
    exact ⟨within.1, within.2⟩

theorem Move.within (move : Move w a w') (within : w.pc.Within w.ring.cq.length) :
    w'.pc.Within w'.ring.cq.length := by
  cases move with
  | goto goto => exact goto.within
  | rearm rearms | rearmFull rearms => exact rearms.within within
  | null here less | completion here less | completionFreed here less | timers here less =>
    rw [here] at within
    exact ⟨less, within.2⟩
  | submit => trivial
  | selfStop =>
    rw [Ring.cq_submit]
    exact within
  | wakeRead | ioDone | otherDone => exact within.grow (by simp [Ring.complete])
  | _ => first | exact within | trivial

theorem World.flying_congr (tagged : w'.ring.tagged data = w.ring.tagged data)
    (unprocessed : w'.pc.unprocessed w'.ring.cq = w.pc.unprocessed w.ring.cq) :
    w'.flying data = w.flying data := by
  simp only [World.flying, tagged, unprocessed]

theorem Goto.flying {pc : Pc} (goto : Goto w a pc) : World.flying { w with pc := pc } data = w.flying data :=
  World.flying_congr rfl (goto.unprocessed _)

theorem World.flying_push (sqe : Sqe) (queued : w'.ring = w.ring.push sqe)
    (unprocessed : w'.pc.unprocessed w.ring.cq = w.pc.unprocessed w.ring.cq) :
    w'.flying data = w.flying data + if sqe.userData = data then 1 else 0 := by
  simp only [World.flying, queued, Ring.tagged_push, Ring.cq_push, unprocessed]
  omega

theorem World.flying_push_other {sqe : Sqe} (queued : w'.ring = w.ring.push sqe)
    (unprocessed : w'.pc.unprocessed w.ring.cq = w.pc.unprocessed w.ring.cq) (other : sqe.userData ≠ data) :
    w'.flying data = w.flying data := by
  rw [World.flying_push sqe queued unprocessed, if_neg other, Nat.add_zero]

theorem World.flying_push_awaiter {b b' : Nat} (opcode : Opcode)
    (queued : w'.ring = w.ring.push ⟨opcode, .awaiter b⟩)
    (unprocessed : w'.pc.unprocessed w.ring.cq = w.pc.unprocessed w.ring.cq) :
    w'.flying (.awaiter b') = w.flying (.awaiter b') + if b = b' then 1 else 0 := by
  rw [World.flying_push _ queued unprocessed]
  simp only [UserData.awaiter.injEq]

/-- The loop takes a completion of a batch. -/
theorem World.flying_take {i n : Nat} {cqe : Cqe} (data : UserData) (here : w.pc = .batch i n) (at_i : w.ring.cq[i]? = some cqe) :
    w.flying data = World.flying { w with pc := .batch (i + 1) n } data + if cqe.userData = data then 1 else 0 := by
  simp only [World.flying, here, Pc.unprocessed_batch at_i, List.map_cons, List.count_cons, beq_iff_eq]
  omega

theorem World.flying_take_other {i n : Nat} {cqe : Cqe} (here : w.pc = .batch i n) (at_i : w.ring.cq[i]? = some cqe)
    (other : cqe.userData ≠ data) : World.flying { w with pc := .batch (i + 1) n } data = w.flying data := by
  have taken := World.flying_take data here at_i
  rw [if_neg other] at taken
  exact taken.symm

/-- The kernel turns an SQE into a completion with the same `user_data`. -/
theorem World.flying_complete {k : Nat} {sqe : Sqe} {cqe : Cqe} (within : w.pc.Within w.ring.cq.length)
    (running : w.ring.inflight[k]? = some sqe) (same : cqe.userData = sqe.userData) :
    World.flying { w with ring := w.ring.complete k cqe } data = w.flying data := by
  have taken := Ring.tagged_complete cqe data running
  have appended : w.pc.unprocessed (w.ring.complete k cqe).cq = w.pc.unprocessed w.ring.cq ++ [cqe] :=
    within.unprocessed_append
  simp only [World.flying, appended, List.map_append, List.count_append, List.map_cons, List.map_nil,
    List.count_singleton, beq_iff_eq, same]
  omega

/-- `cq_advance` drops what the batch has taken. -/
theorem World.flying_advance {i n : Nat} (within : w.pc.Within w.ring.cq.length) (here : w.pc = .batch i n)
    (ended : n ≤ i) : World.flying { w with ring := w.ring.cqAdvance n, pc := .loop } data = w.flying data := by
  rw [here] at within
  obtain rfl : i = n := Nat.le_antisymm within.1 ended
  exact World.flying_congr rfl (by rw [here]; rfl)

end CoroNet.Scheduler
