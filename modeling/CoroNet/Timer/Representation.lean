import CoroNet.Timer.Lifetime

namespace CoroNet.Timers

open Function Transition

/-- The representation invariant of a `TimerQueue`. No step so far has read,
run, re-inserted or deleted a timer after its deletion, since each of these
sets `fault`. -/
structure Consistent (w : World) : Prop where
  noFault : w.fault = none
  timers : ∀ time t, ⟨time, t⟩ ∈ w.timers ↔
    ∃ c, w.Points t c ∧ time = c.timer.expiration ∧ w.active c.timer.sequence = some t
  active : ∀ seq t, w.active seq = some t → ∃ c, w.Points t c ∧ c.timer.sequence = seq
  distinct : ∀ t t' c c', w.Points t c → w.Points t' c' → c.timer.sequence = c'.timer.sequence → t = t'
  below : w.blocks + 1 < sequenceBound → ∀ t c, w.Points t c → c.timer.sequence < w.nextSeq
  batch : ∀ t ∈ w.activation.expired, (∀ time, ⟨time, t⟩ ∉ w.timers) ∧ ∀ seq, w.active seq ≠ some t
  outside : (∀ now expired rest running, w.activation ≠ .batch now expired rest running) →
    w.callingExpired = false ∧ w.cancelingSeqs = []
  held : ∀ t c, w.Points t c → (∃ time, ⟨time, t⟩ ∈ w.timers) ∨ t ∈ w.activation.expired
  deletedOnce : w.deleted.Nodup
  deleted : ∀ b, b ∈ w.deleted ↔ b < w.blocks ∧ w.heap b = none
  destroyed : w.activation = .destroyed → ∀ b < w.blocks, b ∈ w.deleted

theorem Inv.outside {w : World} (inv : Inv w)
    (outside : ∀ now expired rest running, w.activation ≠ .batch now expired rest running) :
    w.callingExpired = false ∧ w.cancelingSeqs = [] := by
  have calm : w.callingExpired = false := by
    rw [Bool.eq_false_iff, Ne, inv.calling]
    rintro ⟨now, expired, rest, running, control⟩
    exact outside now expired rest running control
  exact ⟨calm, inv.quiet calm⟩

theorem Inv.consistent {w : World} (inv : Inv w) (indexed : Indexed w) (room : w.blocks < sequenceBound) :
    Consistent w where
  noFault := inv.fault
  timers := fun _ _ => inv.owned.mem_timers_iff indexed
  active := by
    intro seq t index
    obtain ⟨c, live, number, _⟩ := inv.owned.active seq t index
    exact ⟨c, live, number⟩
  distinct := by
    intro t t' c c' live live' same
    exact live'.eq_of_block live (inv.owned.sequence_inj room live.1 live'.1 same)
  below := by
    intro more t c live
    obtain ⟨old, number⟩ := inv.owned.live _ _ live.1
    rw [number, inv.owned.next, Nat.mod_eq_of_lt (by omega), Nat.mod_eq_of_lt more]
    omega
  batch := by
    intro t member
    refine ⟨fun time queued => (inv.owned.batch t member).2 _ queued rfl, fun seq index => ?_⟩
    exact inv.owned.not_detached index member
  outside := inv.outside
  held := by
    intro t c live
    rw [live.ptr]
    exact (inv.owned.owner _ _ live.1).imp_left fun queued => ⟨_, queued⟩
  deletedOnce := inv.owned.once
  deleted := inv.owned.deleted
  destroyed := fun gone b old => (inv.owned.deleted b).mpr ⟨old, inv.destroyed gone b⟩

/-- Whatever the callbacks and the callers do and in whatever order, the
representation invariant holds in every state, as long as every timer has its
own sequence number. -/
theorem run_consistent {acts : List Act} {w : World} (reach : Run step start acts w)
    (room : created acts < sequenceBound) : Consistent w := by
  have count := run_blocks reach
  exact (run_inv reach).consistent (run_indexed reach room) (by omega)

/-- The callback of a periodic timer cancels a timer of the same batch, adds
a third and throws; the second timer is called all the same. -/
def reentrant : List Act :=
  [.addPeriodic 1 5 0 0 16, .add 2 5 0 0 32, .expire false 10, .call, .cancel ⟨some ⟨32, 1⟩, 2⟩ 10,
    .add 3 7 10 10 48, .ret true, .call, .ret false, .finish 11]

theorem reentrant_consistent : Consistent (Transition.after step start reentrant) :=
  run_consistent (run_after (by decide : (Transition.run step start reentrant).isSome = true)) (by decide)

/-- One timer stays, and behind it others come and go at one address, so that
no more than two are alive at a time. -/
def churn : Nat → List Act
  | 0 => [.add 0 0 0 0 1]
  | n + 1 => churn n ++ [.add 0 0 0 0 2] ++ [.cancel ⟨some ⟨2, n + 1⟩, (n + 2) % sequenceBound⟩ 0]

theorem created_churn (n : Nat) : created (churn n) = n + 1 := by
  induction n with
  | zero => rfl
  | succ n ih =>
    rw [churn, created_append, created_append, ih]
    rfl

theorem World.rearm_clock {w : World} {now : Int} (late : w.clock ≤ now) : (w.rearm now).clock ≤ now := by
  unfold rearm
  split
  · exact late
  · exact le_rfl

theorem World.removed_clock {w : World} {now : Int} (late : w.clock ≤ now) (s : Nat) (t : TimerPtr) (c : Cell) :
    (if w.IsTop t then (w.unlink s t c).rearm now else w.unlink s t c).clock ≤ now := by
  split
  · exact World.rearm_clock late
  · exact late

/-- No timer is alive but the first one, which is due. -/
structure Lone (w : World) : Prop where
  idle : w.activation = .idle
  clock : w.clock ≤ 0
  started : w.started = []
  first : ∃ c, w.heap 0 = some c ∧ c.addr = 1 ∧ c.timer.expiration = 0
  alone : ∀ b c, w.heap b = some c → b = 0
  issued : ⟨some ⟨1, 0⟩, 1⟩ ∈ w.issued

namespace Lone

variable {w : World}

theorem top (lone : Lone w) (inv : Inv w) : w.timers.first? = some ⟨0, ⟨1, 0⟩⟩ := by
  have owned := inv.owned
  rw [lone.idle] at owned
  obtain ⟨c, here, addr, due⟩ := lone.first
  have queued := (owned.owner 0 c here).resolve_right List.not_mem_nil
  obtain ⟨⟨time, p⟩, front⟩ := KeyedSet.first?_isSome queued
  obtain ⟨d, live, expiration⟩ := owned.entry _ (KeyedSet.first?_mem front)
  obtain ⟨other, block⟩ := p
  obtain rfl : block = 0 := lone.alone _ d live.1
  obtain rfl : c = d := Option.some.inj (here.symm.trans live.1)
  obtain rfl : time = 0 := expiration.symm.trans due
  obtain rfl : other = 1 := live.2.symm.trans addr
  exact front

theorem free (lone : Lone w) : w.canAllocate 2 = true := by
  refine decide_eq_true ⟨by decide, fun b _ taken => ?_⟩
  obtain ⟨c, here, addr⟩ := Option.map_eq_some_iff.mp taken
  obtain ⟨first, at_first, one, -⟩ := lone.first
  obtain rfl := lone.alone b c here
  cases at_first.symm.trans here
  omega

/-- Another timer goes behind it. -/
theorem add (lone : Lone w) (inv : Inv w) : step w (.add 0 0 0 0 2) = some (w.link 0 0 0 0 2) := by
  have user : w.userCode = true := by simp [World.userCode, lone.idle]
  have linked : w.add 0 0 0 0 2 = w.link 0 0 0 0 2 := by
    rcases w.insertNew_eq 0 0 0 0 0 2 with ⟨newTop, -⟩ | ⟨-, same⟩
    · exact absurd (newTop _ (lone.top inv)) (by decide)
    · exact same
  simp [step, inv.fault, user, lone.free, lone.clock, linked]

/-- A cancel of the number that the other timer was given takes that one away again. -/
theorem cancel (lone : Lone w) (inv : Inv w) {id : TimerId} (valid : id.timer ≠ none) (number : id.seq = w.nextSeq) :
    ∃ w', step (w.link 0 0 0 0 2) (.cancel id 0) = some w' ∧ Lone w' := by
  have linked : Inv (w.link 0 0 0 0 2) := (step_move inv (lone.add inv)).inv inv
  have user : (w.link 0 0 0 0 2).userCode = true := by simp [World.userCode, World.link, lone.idle]
  have clock : (w.link 0 0 0 0 2).clock ≤ 0 := le_rfl
  have live : (w.link 0 0 0 0 2).Points ⟨2, w.blocks⟩ ⟨2, Timer.new 0 (wrap64 (0 + 0)) 0 w.nextSeq⟩ :=
    ⟨update_self .., rfl⟩
  have index : (w.link 0 0 0 0 2).active id.seq = some ⟨2, w.blocks⟩ := by
    rw [number]
    exact update_self ..
  have found : (w.link 0 0 0 0 2).cancel id 0 = _ := World.cancel_found valid index live
  have late := World.removed_clock clock id.seq ⟨2, w.blocks⟩ ⟨2, Timer.new 0 (wrap64 (0 + 0)) 0 w.nextSeq⟩
  obtain ⟨fd, now, overflow, frame⟩ :=
    (w.link 0 0 0 0 2).removed_frame id.seq ⟨2, w.blocks⟩ ⟨2, Timer.new 0 (wrap64 (0 + 0)) 0 w.nextSeq⟩ 0
  rw [frame] at found late
  have move : step (w.link 0 0 0 0 2) (.cancel id 0) =
      some ((w.link 0 0 0 0 2).outcome ((w.link 0 0 0 0 2).cancel id 0)) := by
    simp [step, linked.fault, user, clock]
  rw [found, World.outcome] at move
  refine ⟨_, move, ?_⟩
  obtain ⟨c, here, addr, due⟩ := lone.first
  refine ⟨lone.idle, late, lone.started, ⟨c, ?_, addr, due⟩, fun b d other => ?_, List.mem_append_left _ lone.issued⟩
  · have fresh : (0 : Nat) ≠ w.blocks := (inv.owned.live 0 c here).1.ne
    simpa only [World.unlink, World.link, update_of_ne fresh] using here
  · obtain ⟨apart, other⟩ := World.delete_heap other
    rcases World.link_heap other with ⟨newest, -⟩ | ⟨-, older⟩
    · exact absurd newest apart
    · exact lone.alone b d older

end Lone

theorem churn_run (n : Nat) : ∃ w, Run step start (churn n) w ∧ Lone w := by
  induction n with
  | zero =>
    refine ⟨after step start (churn 0), run_after (by decide), rfl, le_rfl, rfl, ⟨_, rfl, rfl, rfl⟩, ?_, by decide⟩
    intro b c here
    rcases World.link_heap (w := start) here with ⟨zero, -⟩ | ⟨-, none⟩
    · exact zero
    · cases none
  | succ n ih =>
    obtain ⟨w, reach, lone⟩ := ih
    have inv := run_inv reach
    have blocks : w.blocks = n + 1 := (run_blocks reach).trans (created_churn n)
    have number : (n + 2) % sequenceBound = w.nextSeq := by rw [inv.owned.next, blocks]
    have valid : (⟨some ⟨2, n + 1⟩, (n + 2) % sequenceBound⟩ : TimerId).timer ≠ none := Option.some_ne_none _
    obtain ⟨w', cancel, lone'⟩ := lone.cancel inv valid number
    exact ⟨w', (reach.next (lone.add inv)).next cancel, lone'⟩

/-- The timer that is left is not below `next_seq_` when the last sequence
number has been given out: the counter has wrapped although fewer than 2^64
timers were created. -/
theorem last_sequence_wraps : ∃ w, Run step start (churn (2 ^ 64 - 2)) w ∧
    created (churn (2 ^ 64 - 2)) < 2 ^ 64 ∧ ∃ t c, w.Points t c ∧ ¬ c.timer.sequence < w.nextSeq := by
  obtain ⟨w, reach, lone⟩ := churn_run (2 ^ 64 - 2)
  have count := created_churn (2 ^ 64 - 2)
  obtain ⟨c, here, addr, -⟩ := lone.first
  have next := (run_inv reach).owned.next
  rw [run_blocks reach, count] at next
  have wrapped : w.nextSeq = 0 := by
    rw [next]
    rfl
  refine ⟨w, reach, by omega, ⟨c.addr, 0⟩, c, ⟨here, rfl⟩, ?_⟩
  omega

end CoroNet.Timers
