import CoroNet.Timer.Representation

namespace CoroNet.Timers

open Function Transition

/-- How often the timer's callback has been started. -/
def World.starts (w : World) (t : TimerPtr) : Nat := w.started.count t.block

/-- How often the batch in progress has still to call it. -/
def World.ahead (w : World) (t : TimerPtr) : Nat := (w.activation.rest.map TimerPtr.block).count t.block

/-- Every id handed out names its timer and the timer's sequence number. -/
def Issued (w : World) : Prop :=
  ∀ id ∈ w.issued, ∃ t, id.timer = some t ∧ t.block < w.blocks ∧ id.seq = (t.block + 1) % sequenceBound

theorem Move.issued {w w' : World} {a : Act} (inv : Inv w) (move : Move w a w') (held : Issued w) : Issued w' := by
  cases move with
  | insert =>
    obtain ⟨_, _, _, same⟩ := w.insertNew_frame _ _ _ _ _ _
    rw [same]
    intro id member
    rcases List.mem_append.mp member with member | member
    · obtain ⟨t, named, old, number⟩ := held id member
      exact ⟨t, named, old.trans (Nat.lt_succ_self _), number⟩
    · obtain rfl := List.mem_singleton.mp member
      exact ⟨_, rfl, Nat.lt_succ_self _, inv.owned.next⟩
  | missed => split <;> exact held
  | removed =>
    obtain ⟨_, _, _, same⟩ := w.removed_frame _ _ _ _
    rw [same]
    exact held
  | finish _ _ loop =>
    obtain ⟨_, _, _, same⟩ := World.rearm_frame _ _
    obtain ⟨blocks, _, _, _, _, issued, _⟩ := loop.frame
    rw [same]
    intro id member
    have member' : id ∈ w.issued := by simpa only [issued] using member
    obtain ⟨t, named, old, number⟩ := held id member'
    exact ⟨t, named, by simpa only [blocks] using old, number⟩
  | _ => exact held

theorem run_issued {acts : List Act} {w : World} (reach : Run step start acts w) : Issued w := by
  induction reach with
  | start => exact fun id member => absurd member List.not_mem_nil
  | next reach _ move ih => exact (step_move (run_inv reach) move).issued (run_inv reach) ih

/-- The timer is out of the queue for good: it is not queued, and should it
be in the batch in progress, its re-insertion is called off. -/
structure Canceled (t : TimerPtr) (w : World) : Prop where
  old : t.block < w.blocks
  timers : ∀ e ∈ w.timers, e.timer.block ≠ t.block
  batch : ∀ p ∈ w.activation.expired, p.block = t.block → (t.block + 1) % sequenceBound ∈ w.cancelingSeqs

/-- The second loop of `handleExpired` puts no canceled timer back. -/
theorem Reinserted.canceled {now : Int} {batch : List TimerPtr} {w w' : World} {b : Nat}
    (loop : Reinserted now batch w w') (owned : Owned batch w)
    (timers : ∀ e ∈ w.timers, e.timer.block ≠ b)
    (called : ∀ p ∈ batch, p.block = b → (b + 1) % sequenceBound ∈ w.cancelingSeqs) :
    ∀ e ∈ w'.timers, e.timer.block ≠ b := by
  induction loop with
  | done => exact timers
  | @again w _ t c _ live _ absent _ ih =>
    have different : t.block ≠ b := by
      intro same
      have number := (owned.live _ _ live.1).2
      rw [same] at number
      exact absent (number ▸ called t (List.mem_cons_self ..) same)
    refine ih (owned.relink live now) (fun e member => ?_) fun p member => called p (List.mem_cons_of_mem _ member)
    rcases (owned.relink_mem live).mp member with rfl | member
    · exact different
    · exact timers e member
  | gone live _ _ ih =>
    exact ih (owned.drop live) timers fun p member => called p (List.mem_cons_of_mem _ member)

theorem Move.canceled {w w' : World} {a : Act} {t : TimerPtr} (inv : Inv w) (move : Move w a w')
    (gone : Canceled t w) : Canceled t w' := by
  cases move with
  | @insert _ callback addr delay interval now _ _ _ free =>
    have apart : ∀ e ∈ (w.link callback delay interval now addr).timers, e.timer.block ≠ t.block := by
      intro e member
      rcases (inv.owned.link_mem free).mp member with rfl | member
      · exact gone.old.ne'
      · exact gone.timers e member
    obtain ⟨_, _, _, same⟩ := w.insertNew_frame _ _ _ _ _ _
    rw [same]
    exact ⟨gone.old.trans (Nat.lt_succ_self _), apart, gone.batch⟩
  | missed =>
    split
    · exact ⟨gone.old, gone.timers, fun p member named => List.mem_append_left _ (gone.batch p member named)⟩
    · exact gone
  | @removed id _ p c _ _ _ _ live =>
    have left : ∀ e ∈ (w.unlink id.seq p c).timers, e ∈ w.timers :=
      fun e member => ((inv.owned.unlink_mem live).mp member).1
    obtain ⟨_, _, _, same⟩ := w.removed_frame _ _ _ _
    rw [same]
    refine ⟨gone.old, fun e member => gone.timers e (left e member), ?_⟩
    intro p member named
    have noted := gone.batch p member named
    simp only [World.unlink]
    split
    · exact List.mem_append_left _ noted
    · exact noted
  | expire =>
    refine ⟨gone.old, fun e member => gone.timers e (World.mem_timers.mpr (Or.inr member)), ?_⟩
    intro p member named
    obtain ⟨e, due, rfl⟩ := List.mem_map.mp member
    exact absurd named (gone.timers e (World.mem_timers.mpr (Or.inl due)))
  | call control =>
    have batch := gone.batch
    rw [control] at batch
    exact ⟨gone.old, gone.timers, batch⟩
  | ret control =>
    have batch := gone.batch
    rw [control] at batch
    exact ⟨gone.old, gone.timers, batch⟩
  | finish control _ loop =>
    obtain ⟨_, _, _, same⟩ := World.rearm_frame _ _
    have owned := inv.owned
    have batch := gone.batch
    rw [control] at owned batch
    rw [same]
    refine ⟨by simpa only [loop.frame.1] using gone.old, ?_, fun p member => absurd member List.not_mem_nil⟩
    exact loop.canceled (owned.congr rfl rfl rfl rfl rfl rfl) gone.timers batch
  | destroy =>
    refine ⟨gone.old, fun e member => absurd member (KeyedSet.notMem_empty e), ?_⟩
    exact fun p member => absurd member List.not_mem_nil
  | _ => exact ⟨gone.old, gone.timers, gone.batch⟩

/-- A canceled timer is started only by the batch that already holds it. -/
theorem Move.canceled_starts {w w' : World} {a : Act} {t : TimerPtr} (move : Move w a w') (gone : Canceled t w) :
    w'.starts t + w'.ahead t = w.starts t + w.ahead t ∧ w.starts t ≤ w'.starts t := by
  cases move with
  | insert =>
    obtain ⟨_, _, _, same⟩ := w.insertNew_frame _ _ _ _ _ _
    rw [same]
    exact ⟨rfl, le_rfl⟩
  | missed => split <;> exact ⟨rfl, le_rfl⟩
  | removed =>
    obtain ⟨_, _, _, same⟩ := w.removed_frame _ _ _ _
    rw [same]
    exact ⟨rfl, le_rfl⟩
  | @expire _ now active idle =>
    have none_due : (((w.due now).map Entry.timer).map TimerPtr.block).count t.block = 0 := by
      refine List.count_eq_zero.mpr fun member => ?_
      obtain ⟨p, member, named⟩ := List.mem_map.mp member
      obtain ⟨e, due, rfl⟩ := List.mem_map.mp member
      exact gone.timers e (World.mem_timers.mpr (Or.inl due)) named
    have before : w.ahead t = 0 := by simp [World.ahead, idle, Activation.rest]
    refine ⟨?_, le_rfl⟩
    rw [before]
    exact congrArg (w.starts t + ·) none_due
  | @call now expired rest p c control =>
    have before : w.ahead t = ((p :: rest).map TimerPtr.block).count t.block := by
      simp [World.ahead, control, Activation.rest]
    simp only [World.starts, World.ahead, Activation.rest, List.count_append, List.count_singleton] at before ⊢
    rw [before, List.map_cons, List.count_cons]
    omega
  | ret control => exact ⟨by simp [World.starts, World.ahead, control, Activation.rest], le_rfl⟩
  | finish control _ loop =>
    obtain ⟨_, _, _, same⟩ := World.rearm_frame _ _
    obtain ⟨_, _, _, _, _, _, started, _⟩ := loop.frame
    rw [same]
    simp [World.starts, World.ahead, control, Activation.rest, started]
  | destroy idle => exact ⟨by simp [World.starts, World.ahead, World.destroyed, idle, Activation.rest], le_rfl⟩
  | _ => exact ⟨rfl, le_rfl⟩

theorem issued_sequence {w : World} {t : TimerPtr} {seq : Nat} (issued : Issued w) (room : w.blocks < sequenceBound)
    (member : ⟨some t, seq⟩ ∈ w.issued) : seq = t.block + 1 := by
  obtain ⟨p, named, old, number⟩ := issued _ member
  cases Option.some.inj named
  exact number.trans (Nat.mod_eq_of_lt (by omega))

/-- The timer found under a sequence number is the one that the number tells. -/
theorem Inv.found_block {w : World} (inv : Inv w) (room : w.blocks < sequenceBound) {seq b : Nat} {p : TimerPtr}
    (named : seq = b + 1) (index : w.active seq = some p) : b = p.block := by
  obtain ⟨c, live, sequence, _⟩ := inv.owned.active seq p index
  have number := inv.sequence room live.1
  omega

/-- Where every timer has its own sequence number, a cancel of an id that the
queue has handed out takes the timer out of the queue for good. -/
theorem cancel_canceled {w w' : World} {t : TimerPtr} {seq : Nat} {now : Int} (inv : Inv w) (indexed : Indexed w)
    (room : w.blocks < sequenceBound) (issued : Issued w) (member : ⟨some t, seq⟩ ∈ w.issued)
    (cancel : step w (.cancel ⟨some t, seq⟩ now) = some w') : Canceled t w' := by
  have named := issued_sequence issued room member
  have old : t.block < w.blocks := by
    obtain ⟨p, same, old, _⟩ := issued _ member
    cases Option.some.inj same
    exact old
  have number : (t.block + 1) % sequenceBound = seq := named ▸ Nat.mod_eq_of_lt (by omega)
  rcases cancel_cases inv cancel with ⟨empty, _⟩ | ⟨_, missing, rfl⟩ | ⟨_, p, c, index, live, rfl⟩
  · exact absurd empty (Option.some_ne_none _)
  · have absent : ∀ e ∈ w.timers, e.timer.block ≠ t.block := by
      intro e queued same
      obtain ⟨c, live, _⟩ := inv.owned.entry e queued
      have index := indexed e queued c live
      rw [inv.sequence room live.1, same, ← named] at index
      exact Option.some_ne_none _ (index.symm.trans missing)
    split
    · exact ⟨old, absent, fun p _ _ => List.mem_append_right _ (List.mem_singleton.mpr number)⟩
    · rename_i calm
      exact ⟨old, absent, fun p popped _ => absurd (inv.calling_of_popped popped) calm⟩
  · have same : t.block = p.block := inv.found_block room named index
    have left : ∀ e ∈ (w.unlink seq p c).timers, e.timer.block ≠ t.block := by
      intro e member here
      obtain ⟨queued, apart⟩ := (inv.owned.unlink_mem live).mp member
      obtain ⟨d, other, _⟩ := inv.owned.entry e queued
      exact apart (live.eq_of_block other (here.trans same))
    obtain ⟨_, _, _, frame⟩ := w.removed_frame seq p c now
    rw [frame]
    refine ⟨old, left, fun q popped here => ?_⟩
    obtain ⟨⟨d, other⟩, _⟩ := inv.owned.batch q popped
    have again : q = p := live.eq_of_block other (here.trans same)
    exact absurd (again ▸ popped) (inv.owned.not_detached index)

theorem run_canceled {w w' : World} {acts : List Act} {t : TimerPtr} (inv : Inv w) (gone : Canceled t w)
    (reach : Run step w acts w') :
    Inv w' ∧ Canceled t w' ∧ w'.starts t + w'.ahead t = w.starts t + w.ahead t ∧ w.starts t ≤ w'.starts t := by
  induction reach with
  | start => exact ⟨inv, gone, rfl, le_rfl⟩
  | next _ _ move ih =>
    obtain ⟨inv', gone', count, grow⟩ := ih
    have move' := step_move inv' move
    obtain ⟨count', grow'⟩ := move'.canceled_starts gone'
    exact ⟨move'.inv inv', move'.canceled inv' gone', count'.trans count, grow.trans grow'⟩

/-- A batch holds a timer once. -/
theorem Inv.ahead_le {w : World} (inv : Inv w) (t : TimerPtr) : w.ahead t ≤ 1 := by
  have nodup : (w.activation.expired.map TimerPtr.block).Nodup := by
    refine (List.nodup_map_iff_inj_on inv.owned.nodup).mpr fun p member q member' same => ?_
    obtain ⟨⟨c, live⟩, _⟩ := inv.owned.batch p member
    obtain ⟨⟨d, live'⟩, _⟩ := inv.owned.batch q member'
    exact live'.eq_of_block live same
  have sub := (inv.rest.sublist.map TimerPtr.block).count_le t.block
  exact sub.trans (List.nodup_iff_count_le_one.mp nodup t.block)

/-- A canceled timer is never started again, except that a `handleExpired` in
progress that has popped it and not called it yet calls it once more; from
then on it is never started again either. -/
theorem cancel_stops {acts more : List Act} {w w' w'' : World} {t : TimerPtr} {seq : Nat} {now : Int}
    (before : Run step start acts w) (room : created acts < sequenceBound) (member : ⟨some t, seq⟩ ∈ w.issued)
    (cancel : step w (.cancel ⟨some t, seq⟩ now) = some w') (later : Run step w' more w'') :
    (w.ahead t = 0 → w''.starts t = w.starts t) ∧
      (w.ahead t ≠ 0 → w.ahead t = 1 ∧ (w''.ahead t = 1 ∧ w''.starts t = w.starts t ∨
        w''.ahead t = 0 ∧ w''.starts t = w.starts t + 1)) := by
  have inv := run_inv before
  have count := run_blocks before
  have gone := cancel_canceled inv (run_indexed before room) (by omega) (run_issued before) member cancel
  have same : w'.ahead t = w.ahead t ∧ w'.starts t = w.starts t := by
    rcases cancel_cases inv cancel with ⟨_, rfl⟩ | ⟨_, _, rfl⟩ | ⟨_, _, _, _, _, rfl⟩
    · exact ⟨rfl, rfl⟩
    · split <;> exact ⟨rfl, rfl⟩
    · obtain ⟨_, _, _, frame⟩ := w.removed_frame _ _ _ _
      rw [frame]
      exact ⟨rfl, rfl⟩
  obtain ⟨_, _, conserved, grow⟩ := run_canceled ((step_move inv cancel).inv inv) gone later
  have once := inv.ahead_le t
  omega

/-- Two timers expire together and the callback of the first is running. -/
def together : List Act := [.add 1 5 0 0 16, .add 2 5 0 0 32, .expire false 10, .call]

theorem together_cancel_stops : ∃ w w' w'', Run step start together w ∧
    step w (.cancel ⟨some ⟨32, 1⟩, 2⟩ 10) = some w' ∧ Run step w' [.ret false, .call] w'' ∧
    w''.ahead ⟨32, 1⟩ = 0 ∧ w''.starts ⟨32, 1⟩ = w.starts ⟨32, 1⟩ + 1 := by
  have reach : Run step start together (after step start together) := run_after (by decide)
  have cancel : step (after step start together) (.cancel ⟨some ⟨32, 1⟩, 2⟩ 10) =
      some (after step start (together ++ [.cancel ⟨some ⟨32, 1⟩, 2⟩ 10])) := rfl
  have later : Run step (after step start (together ++ [.cancel ⟨some ⟨32, 1⟩, 2⟩ 10])) [.ret false, .call]
      (after step (after step start (together ++ [.cancel ⟨some ⟨32, 1⟩, 2⟩ 10])) [.ret false, .call]) :=
    run_after (by decide)
  refine ⟨_, _, _, reach, cancel, later, by decide, ?_⟩
  rcases ((cancel_stops reach (by decide) (by decide) cancel later).2 (by decide)).2 with ⟨waits, _⟩ | ⟨_, called⟩
  · exact absurd waits (by decide)
  · exact called

/-- An expired batch whose first timer is known calls it. -/
theorem expire_call {w : World} {e : Entry} {now : Int} (inv : Inv w) (idle : w.activation = .idle)
    (late : w.clock ≤ now) (first : w.timers.first? = some e) (due : e.time ≤ now) :
    ∃ w', Run step w [.expire false now, .call] w' ∧ w'.started = w.started ++ [e.timer.block] := by
  have owned := inv.owned
  rw [idle] at owned
  obtain ⟨active, run, left⟩ := Owned.expire_ok (w := w.consume false) (owned.congr rfl rfl rfl rfl rfl rfl) now
  have expire : step w (.expire false now) = some ((w.consume false).popped now active) := by
    simp [step, inv.fault, idle, late, run, World.outcome]
  have inv' := (step_move inv expire).inv inv
  obtain ⟨rest, front⟩ : ∃ rest, w.due now = e :: rest := by
    obtain ⟨tail, elems⟩ := List.head?_eq_some_iff.mp first
    refine ⟨tail.takeWhile fun e => e.time ≤ now, ?_⟩
    simp [World.due, KeyedSet.popWhile, elems, due]
  have control : ((w.consume false).popped now active).activation =
      .batch now (e.timer :: rest.map Entry.timer) (e.timer :: rest.map Entry.timer) false := by
    have front' : (w.consume false).due now = e :: rest := front
    simp [World.popped, front']
  have member : e.timer ∈ ((w.consume false).popped now active).activation.expired := by
    rw [control]
    exact List.mem_cons_self ..
  obtain ⟨⟨c, live⟩, _⟩ := inv'.owned.batch _ member
  have call : step ((w.consume false).popped now active) .call =
      some { (w.consume false).popped now active with
        activation := .batch now (e.timer :: rest.map Entry.timer) (rest.map Entry.timer) true
        started := w.started ++ [e.timer.block] } := by
    simp only [step, inv'.fault, control, World.call, live.deref, bind, Except.bind, World.outcome]
    rfl
  exact ⟨_, Run.trans (Run.single expire) (Run.single call), rfl⟩

/-- One timer lives while 2^64 - 1 others come and go; the next one has its
sequence number. -/
def lapped : List Act := churn (2 ^ 64 - 1) ++ [.add 0 0 0 0 2]

/-- A cancel of the first timer takes the newest one away instead. -/
theorem lapped_cancel : ∃ w w', Run step start lapped w ∧ ⟨some ⟨1, 0⟩, 1⟩ ∈ w.issued ∧
    ⟨0, ⟨1, 0⟩⟩ ∈ w.timers ∧ ⟨0, ⟨2, 2 ^ 64⟩⟩ ∈ w.timers ∧ step w (.cancel ⟨some ⟨1, 0⟩, 1⟩ 0) = some w' ∧ Lone w' := by
  obtain ⟨w, reach, lone⟩ := churn_run (2 ^ 64 - 1)
  have inv := run_inv reach
  have blocks : w.blocks = 2 ^ 64 := (run_blocks reach).trans (created_churn _)
  have number : 1 = w.nextSeq := by
    rw [inv.owned.next, blocks]
    rfl
  have valid : (⟨some ⟨1, 0⟩, 1⟩ : TimerId).timer ≠ none := Option.some_ne_none _
  obtain ⟨w', cancel, alone⟩ := lone.cancel inv valid number
  have queued (e : Entry) : e ∈ (w.link 0 0 0 0 2).timers ↔ e = ⟨0, ⟨2, 2 ^ 64⟩⟩ ∨ e ∈ w.timers := by
    rw [← blocks]
    exact inv.owned.link_mem lone.free
  have older := KeyedSet.first?_mem (lone.top inv)
  exact ⟨_, w', reach.next (lone.add inv), List.mem_append_left _ lone.issued, (queued _).mpr (Or.inr older),
    (queued _).mpr (Or.inl rfl), cancel, alone⟩

/-- The older timer is called after the cancel. -/
theorem reused_sequence_starts : ∃ w w' w'', Run step start lapped w ∧
    ⟨some ⟨1, 0⟩, 1⟩ ∈ w.issued ∧ step w (.cancel ⟨some ⟨1, 0⟩, 1⟩ 0) = some w' ∧ w'.ahead ⟨1, 0⟩ = 0 ∧
    Run step w' [.expire false 0, .call] w'' ∧ w''.starts ⟨1, 0⟩ = w'.starts ⟨1, 0⟩ + 1 := by
  obtain ⟨w, w', reach, issued, -, -, cancel, lone⟩ := lapped_cancel
  have inv := (step_move (run_inv reach) cancel).inv (run_inv reach)
  obtain ⟨w'', later, started⟩ : ∃ w'', Run step w' [.expire false 0, .call] w'' ∧ w''.started = w'.started ++ [0] :=
    expire_call inv lone.idle lone.clock (lone.top inv) le_rfl
  refine ⟨w, w', w'', reach, issued, cancel, ?_, later, ?_⟩
  · simp [World.ahead, lone.idle, Activation.rest]
  · simp [World.starts, started]

/-- A timer can be started after its cancel: by the batch that has popped it,
and where another timer has taken its sequence number. -/
theorem canceled_timer_starts :
    (∃ w w' w'', Run step start together w ∧ ⟨some ⟨32, 1⟩, 2⟩ ∈ w.issued ∧
      step w (.cancel ⟨some ⟨32, 1⟩, 2⟩ 10) = some w' ∧ Run step w' [.ret false, .call] w'' ∧
      w''.starts ⟨32, 1⟩ = w'.starts ⟨32, 1⟩ + 1) ∧
    ∃ w w' w'', Run step start lapped w ∧ ⟨some ⟨1, 0⟩, 1⟩ ∈ w.issued ∧
      step w (.cancel ⟨some ⟨1, 0⟩, 1⟩ 0) = some w' ∧ w'.ahead ⟨1, 0⟩ = 0 ∧
      Run step w' [.expire false 0, .call] w'' ∧ w''.starts ⟨1, 0⟩ = w'.starts ⟨1, 0⟩ + 1 := by
  refine ⟨⟨after step start together, after step start (together ++ [.cancel ⟨some ⟨32, 1⟩, 2⟩ 10]),
    after step start (together ++ [.cancel ⟨some ⟨32, 1⟩, 2⟩ 10, .ret false, .call]), ?_, by decide, rfl, ?_,
    by decide⟩, reused_sequence_starts⟩
  · exact run_after (by decide)
  · exact run_eq_some rfl

end CoroNet.Timers
