import CoroNet.Timer.Lifetime

namespace CoroNet.Timers

open Function Transition

/-- The earliest timer is looked after: a completion of the timerfd waits, or
the alarm is not later than its expiration and the next nanosecond after the
alarm was set; and there is no alarm without a timer. -/
structure Armed (w : World) : Prop where
  covered : ∀ e, w.timers.first? = some e →
    w.fd.pending = true ∨ ∃ alarm, w.fd.alarm = some alarm ∧ alarm ≤ max e.time (w.fd.armedAt + 1)
  cleared : w.timers.first? = none → w.fd.alarm = none

theorem Timerfd.settime_zero (fd : Timerfd) (now : Int) : (fd.settime now {}).alarm = none := by
  simp [settime]

/-- Seconds and nanoseconds together are the time asked for. -/
theorem Timerfd.settime_pos (fd : Timerfd) (now ns : Int) (positive : 0 < ns) :
    fd.settime now ⟨ns / 1000000000, ns % 1000000000⟩ = { fd with alarm := some (now + ns), armedAt := now } := by
  have whole := Int.mul_ediv_add_emod ns 1000000000
  have some_left : ¬ (ns / 1000000000 = 0 ∧ ns % 1000000000 = 0) := by omega
  have sum : now + (ns / 1000000000 * 1000000000 + ns % 1000000000) = now + ns := by omega
  simp only [settime, if_neg some_left, sum]

/-- The alarm is set for the time that the difference leads to, at the earliest
for the next nanosecond. -/
theorem World.resetTimerfd_alarm {w : World} {time due now : Int} (left : wrap64 (time - now) = due - now) :
    (w.resetTimerfd time now).fd = { w.fd with alarm := some (max due (now + 1)), armedAt := now } := by
  simp only [resetTimerfd, left]
  by_cases late : due - now ≤ 0
  · rw [if_pos late, Timerfd.settime_pos _ _ _ Int.one_pos, show max due (now + 1) = now + 1 by omega]
  · rw [if_neg late, Timerfd.settime_pos _ _ _ (by omega), show max due (now + 1) = now + (due - now) by omega]

theorem World.resetTimerfd_fd {w : World} {time now : Int} (exact : (w.resetTimerfd time now).overflow = false) :
    (w.resetTimerfd time now).fd = { w.fd with alarm := some (max time (now + 1)), armedAt := now } := by
  have fits : fits64 (time - now) = true := by
    simp only [resetTimerfd, Bool.or_eq_false_iff, Bool.not_eq_false'] at exact
    exact exact.2
  exact World.resetTimerfd_alarm (wrap64_of_fits fits)

theorem World.rearm_armed {w : World} {now : Int} (exact : (w.rearm now).overflow = false) : Armed (w.rearm now) := by
  unfold rearm at exact ⊢
  cases first : w.timers.first? with
  | none =>
    refine ⟨fun e top => ?_, fun _ => w.fd.settime_zero w.clock⟩
    exact absurd (first.symm.trans top) (Option.some_ne_none e).symm
  | some e =>
    rw [first] at exact
    have fd := World.resetTimerfd_fd exact
    refine ⟨fun e' top => Or.inr ⟨max e.time (now + 1), by rw [fd], ?_⟩, fun top => ?_⟩
    · cases first.symm.trans top
      rw [fd]
    · exact absurd (first.symm.trans top) (Option.some_ne_none e)

/-- Where the first entry of one queue is not earlier than that of another
and the timerfd is the same, the alarm covers it as well. -/
theorem Armed.later {w w' : World} (armed : Armed w) (fd : w'.fd = w.fd)
    (later : ∀ e', w'.timers.first? = some e' → ∃ e, w.timers.first? = some e ∧ e.time ≤ e'.time)
    (left : w'.timers.first? = none → w.timers.first? = none) : Armed w' := by
  refine ⟨fun e' top => ?_, fun none_left => ?_⟩
  · obtain ⟨e, first, earlier⟩ := later e' top
    rw [fd]
    rcases armed.covered e first with pending | ⟨alarm, set, bound⟩
    · exact Or.inl pending
    · exact Or.inr ⟨alarm, set, by omega⟩
  · rw [fd]
    exact armed.cleared (left none_left)

theorem World.first_le {w : World} {e e' : Entry} (first : w.timers.first? = some e) (member : e' ∈ w.timers) :
    e.time ≤ e'.time :=
  Entry.time_le (KeyedSet.first?_le first member)

theorem Armed.insert {w : World} (inv : Inv w) (armed : Armed w) {callback addr : Nat}
    {delay interval now now' : Int} (free : w.canAllocate addr = true)
    (exact : (w.insertNew callback delay interval now now' addr).overflow = false) :
    Armed (w.insertNew callback delay interval now now' addr) := by
  have member : ∀ e, e ∈ (w.link callback delay interval now addr).timers ↔
      e = ⟨wrap64 (now + delay), ⟨addr, w.blocks⟩⟩ ∨ e ∈ w.timers := fun e => inv.owned.link_mem free
  have nonempty : (w.link callback delay interval now addr).timers.first? ≠ none := fun empty =>
    KeyedSet.first?_eq_none.mp empty _ ((member _).mpr (Or.inl rfl))
  rcases w.insertNew_eq callback delay interval now now' addr with ⟨top, same⟩ | ⟨below, same⟩
  · rw [same] at exact ⊢
    have fd := World.resetTimerfd_fd exact
    refine ⟨fun e first => Or.inr ⟨_, by rw [fd], ?_⟩, fun empty => absurd empty nonempty⟩
    have earlier : wrap64 (now + delay) ≤ e.time := by
      rcases (member e).mp (KeyedSet.first?_mem first) with rfl | queued
      · exact le_rfl
      · obtain ⟨old, front⟩ := KeyedSet.first?_isSome queued
        exact (top old front).le.trans (World.first_le front queued)
    rw [fd]
    show max (wrap64 (now + delay)) (now' + 1) ≤ max e.time (now' + 1)
    omega
  · rw [same]
    obtain ⟨old, front, earlier⟩ : ∃ e, w.timers.first? = some e ∧ e.time ≤ wrap64 (now + delay) := by
      simpa [World.NewTop] using below
    refine armed.later rfl (fun e first => ⟨old, front, ?_⟩) fun empty => absurd empty nonempty
    rcases (member e).mp (KeyedSet.first?_mem first) with rfl | queued
    · exact earlier
    · exact World.first_le front queued

/-- A cancel that removes a timer which is not the first keeps the first. -/
theorem World.unlink_first {w : World} (inv : Inv w) {seq : Nat} {t : TimerPtr} {c : Cell} (live : w.Points t c)
    {e : Entry} (first : w.timers.first? = some e) (other : ¬ w.IsTop t) : e ∈ (w.unlink seq t c).timers := by
  refine (inv.owned.unlink_mem live).mpr ⟨KeyedSet.first?_mem first, fun same => other ?_⟩
  simp [World.IsTop, first, same]

theorem Armed.remove {w : World} (inv : Inv w) (armed : Armed w) {seq : Nat} {t : TimerPtr} {c : Cell} {now : Int}
    (index : w.active seq = some t) (live : w.Points t c)
    (exact : (if w.IsTop t then (w.unlink seq t c).rearm now else w.unlink seq t c).overflow = false) :
    Armed (if w.IsTop t then (w.unlink seq t c).rearm now else w.unlink seq t c) := by
  by_cases top : w.IsTop t
  · rw [if_pos top] at exact ⊢
    exact World.rearm_armed exact
  · rw [if_neg top]
    obtain ⟨_, _, _, queued⟩ := inv.owned.active seq t index
    obtain ⟨old, front⟩ := KeyedSet.first?_isSome queued
    have kept : old ∈ (w.unlink seq t c).timers := World.unlink_first inv live front top
    refine armed.later rfl (fun e first => ⟨old, front, ?_⟩) fun empty => ?_
    · exact World.first_le front ((inv.owned.unlink_mem live).mp (KeyedSet.first?_mem first)).1
    · exact absurd kept (KeyedSet.first?_eq_none.mp empty old)

theorem World.rearm_exact {w : World} {now : Int} (exact : (w.rearm now).overflow = false) : w.overflow = false := by
  unfold rearm at exact
  split at exact
  · exact exact
  · exact (Bool.or_eq_false_iff.mp exact).1

theorem Reinserted.exact {now : Int} {batch : List TimerPtr} {w w' : World} (loop : Reinserted now batch w w')
    (exact : w'.overflow = false) : w.overflow = false := by
  induction loop with
  | done => exact exact
  | again _ _ _ _ ih => exact (Bool.or_eq_false_iff.mp (ih exact)).1
  | gone _ _ _ ih => exact ih exact

/-- No step takes an overflow back. -/
theorem Move.exact {w w' : World} {a : Act} (move : Move w a w') (exact : w'.overflow = false) :
    w.overflow = false := by
  cases move with
  | @insert _ callback addr delay interval now now' =>
    rcases w.insertNew_eq callback delay interval now now' addr with ⟨_, same⟩ | ⟨_, same⟩
    · rw [same] at exact
      exact (Bool.or_eq_false_iff.mp (Bool.or_eq_false_iff.mp exact).1).1
    · rw [same] at exact
      exact (Bool.or_eq_false_iff.mp exact).1
  | missed =>
    split at exact
    · exact exact
    · exact exact
  | removed =>
    split at exact
    · have kept : (w.unlink _ _ _).overflow = false := World.rearm_exact exact
      exact kept
    · exact exact
  | @finish _ _ _ w'' _ _ loop =>
    have kept : ({ w'' with cancelingSeqs := [], activation := .idle } : World).overflow = false :=
      World.rearm_exact exact
    exact loop.exact kept
  | _ => exact exact

theorem Move.armed {w w' : World} {a : Act} (inv : Inv w) (move : Move w a w') (exact : w'.overflow = false)
    (idle : w'.activation = .idle) (armed : w.activation = .idle → Armed w) : Armed w' := by
  cases move with
  | fire => exact ⟨fun _ _ => Or.inl rfl, fun _ => rfl⟩
  | insert _ _ free =>
    obtain ⟨_, _, _, same⟩ := w.insertNew_frame _ _ _ _ _ _
    have calm : w.activation = .idle := by
      rw [same] at idle
      exact idle
    exact (armed calm).insert inv free exact
  | ignored => exact armed idle
  | missed =>
    split at idle
    · rename_i calling
      rw [if_pos calling]
      exact (armed idle).later rfl (fun e first => ⟨e, first, le_rfl⟩) id
    · rename_i calm
      rw [if_neg calm]
      exact armed idle
  | removed _ _ _ index live =>
    obtain ⟨_, _, _, same⟩ := w.removed_frame _ _ _ _
    have calm : w.activation = .idle := by
      rw [same] at idle
      exact idle
    exact (armed calm).remove inv index live exact
  | finish => exact World.rearm_armed exact
  | expire | call | ret | destroy => exact Activation.noConfusion idle

theorem run_armed {acts : List Act} {w : World} (reach : Run step start acts w) (exact : w.overflow = false)
    (idle : w.activation = .idle) : Armed w := by
  induction reach with
  | start => exact ⟨fun e first => absurd (KeyedSet.first?_mem first) (KeyedSet.notMem_empty e), fun _ => rfl⟩
  | next before _ move ih =>
    have inv := run_inv before
    have move := step_move inv move
    exact move.armed inv exact idle fun calm => ih (move.exact exact) calm

/-- A cancel that takes the last timer out of `timers_`, wherever it is
called from, clears the alarm. -/
theorem cancel_clears {w w' : World} {id : TimerId} {now : Int} (inv : Inv w)
    (cancel : step w (.cancel id now) = some w') (some_timer : w.timers.first? ≠ none)
    (none_left : w'.timers.first? = none) : w'.fd.alarm = none := by
  rcases cancel_cases inv cancel with ⟨_, rfl⟩ | ⟨_, _, rfl⟩ | ⟨_, t, c, _, live, rfl⟩
  · exact absurd none_left some_timer
  · split at none_left
    · exact absurd none_left some_timer
    · exact absurd none_left some_timer
  · by_cases top : w.IsTop t
    · rw [if_pos top] at none_left ⊢
      have empty : (w.unlink id.seq t c).timers.first? = none := by
        obtain ⟨_, _, _, same⟩ := (w.unlink id.seq t c).rearm_frame now
        rwa [same] at none_left
      simp only [World.rearm, empty]
      exact (w.unlink id.seq t c).fd.settime_zero w.clock
    · rw [if_neg top] at none_left
      obtain ⟨old, front⟩ := Option.ne_none_iff_exists'.mp some_timer
      exact absurd (World.unlink_first inv live front top) (KeyedSet.first?_eq_none.mp none_left old)

/-- No timer is left without an alarm, and no alarm without a timer: outside
`handleExpired` the earliest timer is always looked after, and a cancel that
empties the queue clears the alarm even inside a callback. -/
theorem alarm_covers_timers {acts : List Act} {w : World} (reach : Run step start acts w)
    (exact : w.overflow = false) :
    (w.activation = .idle →
      (∀ e, w.timers.first? = some e →
        w.fd.pending = true ∨ ∃ alarm, w.fd.alarm = some alarm ∧ alarm ≤ max e.time (w.fd.armedAt + 1)) ∧
      (w.timers.first? = none → w.fd.alarm = none)) ∧
    ∀ id now w', step w (.cancel id now) = some w' → w.timers.first? ≠ none → w'.timers.first? = none →
      w'.fd.alarm = none := by
  refine ⟨fun idle => ?_, fun id now w' cancel => cancel_clears (run_inv reach) cancel⟩
  have armed := run_armed reach exact idle
  exact ⟨armed.covered, armed.cleared⟩

/-- Two timers of one deadline, the first of them canceled. -/
def tied : List Act := [.add 1 5 0 0 16, .add 2 5 0 0 32, .cancel ⟨some ⟨16, 0⟩, 1⟩ 3]

theorem tied_alarm : ∃ alarm, (after step start tied).fd.alarm = some alarm ∧
    alarm ≤ max 5 ((after step start tied).fd.armedAt + 1) := by
  have covers := ((alarm_covers_timers (run_after (by decide) : Run step start tied _) (by decide)).1 rfl).1
  exact (covers ⟨5, ⟨32, 1⟩⟩ (by decide)).resolve_left (by decide)

end CoroNet.Timers
