import CoroNet.Timer.Moves

namespace CoroNet.Timers

open Function Transition

/-- Looking at the alarm touches the timerfd, the clock and the overflow flag only. -/
theorem World.rearm_frame (w : World) (now : Int) :
    ∃ fd clock overflow, w.rearm now = { w with fd := fd, clock := clock, overflow := overflow } := by
  unfold rearm
  split
  · exact ⟨_, w.clock, w.overflow, rfl⟩
  · exact ⟨_, _, _, rfl⟩

theorem World.insertNew_frame (w : World) (callback : Nat) (delay interval now now' : Int) (addr : Nat) :
    ∃ fd clock overflow, w.insertNew callback delay interval now now' addr =
      { w.link callback delay interval now addr with fd := fd, clock := clock, overflow := overflow } := by
  rcases w.insertNew_eq callback delay interval now now' addr with ⟨_, same⟩ | ⟨_, same⟩
  · exact ⟨_, _, _, same⟩
  · exact ⟨_, _, _, same⟩

theorem World.removed_frame (w : World) (s : Nat) (t : TimerPtr) (c : Cell) (now : Int) :
    ∃ fd clock overflow, (if w.IsTop t then (w.unlink s t c).rearm now else w.unlink s t c) =
      { w.unlink s t c with fd := fd, clock := clock, overflow := overflow } := by
  split
  · exact (w.unlink s t c).rearm_frame now
  · exact ⟨_, _, _, rfl⟩

/-- The members the second loop of `handleExpired` leaves alone. -/
theorem Reinserted.frame {now : Int} {batch : List TimerPtr} {w w' : World} (loop : Reinserted now batch w w') :
    w'.blocks = w.blocks ∧ w'.nextSeq = w.nextSeq ∧ w'.fault = w.fault ∧
      w'.callingExpired = w.callingExpired ∧ w'.cancelingSeqs = w.cancelingSeqs ∧
      w'.issued = w.issued ∧ w'.started = w.started ∧ w'.clock = w.clock := by
  induction loop with
  | done => simp
  | again _ _ _ _ ih => exact ih
  | gone _ _ _ ih => exact ih

/-- The blocks of the timers in a batch are distinct. -/
theorem Owned.head_block {t : TimerPtr} {rest : List TimerPtr} {w : World} (owned : Owned (t :: rest) w) :
    t.block ∉ rest.map TimerPtr.block := by
  intro member
  obtain ⟨p, later, same⟩ := List.mem_map.mp member
  obtain ⟨⟨c, live⟩, _⟩ := owned.batch t (List.mem_cons_self ..)
  obtain ⟨⟨d, other⟩, _⟩ := owned.batch p (List.mem_cons_of_mem _ later)
  obtain rfl := live.eq_of_block other same
  exact (List.nodup_cons.mp owned.nodup).1 later

/-- Of the batch, the second loop of `handleExpired` restarts the periodic
timers that were not canceled and deletes the others. -/
theorem Reinserted.heap {now : Int} {batch : List TimerPtr} {w w' : World} (loop : Reinserted now batch w w')
    (owned : Owned batch w) :
    (∀ b, b ∉ batch.map TimerPtr.block → w'.heap b = w.heap b) ∧
      ∀ t ∈ batch, ∀ c, w.Points t c → w'.heap t.block =
        if c.timer.repeat_ = true ∧ c.timer.sequence ∉ w.cancelingSeqs then some ⟨t.addr, c.timer.restart now⟩
        else none := by
  induction loop with
  | done => exact ⟨fun _ _ => rfl, fun t member => absurd member List.not_mem_nil⟩
  | @again w w' t c rest live again absent _ ih =>
    obtain ⟨outside, inside⟩ := ih (owned.relink live now)
    constructor
    · intro b apart
      obtain ⟨other, apart⟩ := not_or.mp (mt List.mem_cons.mpr apart)
      rw [outside b apart]
      exact update_of_ne other _ _
    · intro p member d here
      rcases List.mem_cons.mp member with rfl | member
      · obtain rfl := live.unique here
        rw [outside _ owned.head_block, if_pos ⟨again, absent⟩]
        exact update_self _ _ _
      · have different : p ≠ t := fun same => (List.nodup_cons.mp owned.nodup).1 (same ▸ member)
        exact inside p member d (World.relink_points live different here)
  | @gone w w' t c rest live kept _ ih =>
    obtain ⟨outside, inside⟩ := ih (owned.drop live)
    constructor
    · intro b apart
      obtain ⟨other, apart⟩ := not_or.mp (mt List.mem_cons.mpr apart)
      rw [outside b apart]
      exact update_of_ne other _ _
    · intro p member d here
      rcases List.mem_cons.mp member with rfl | member
      · obtain rfl := live.unique here
        rw [outside _ owned.head_block, if_neg fun again => again.2 (kept again.1)]
        exact update_self _ _ _
      · have different : p ≠ t := fun same => (List.nodup_cons.mp owned.nodup).1 (same ▸ member)
        exact inside p member d (World.drop_points live different here)

theorem Move.blocks {w w' : World} {a : Act} (move : Move w a w') :
    w'.blocks = w.blocks + if a.creates then 1 else 0 := by
  cases move with
  | insert kind =>
    obtain ⟨_, _, _, same⟩ := w.insertNew_frame _ _ _ _ _ _
    rw [same]
    rcases kind with ⟨rfl, _⟩ | ⟨rfl, _⟩ <;> rfl
  | missed => split <;> rfl
  | removed =>
    obtain ⟨_, _, _, same⟩ := w.removed_frame _ _ _ _
    rw [same]
    rfl
  | finish _ _ loop =>
    obtain ⟨_, _, _, same⟩ := World.rearm_frame _ _
    rw [same]
    exact loop.frame.1
  | _ => rfl

theorem Inv.start : Inv start where
  fault := rfl
  owned := Owned.start
  calling := by simp [Timers.start]
  quiet := fun _ => rfl
  rest := List.suffix_rfl
  destroyed := by simp [Timers.start]

/-- No activity of the queue inside `handleExpired`, so nothing to remember. -/
theorem Inv.idle {w : World} (inv : Inv w) (idle : w.activation = .idle) :
    w.callingExpired = false ∧ w.cancelingSeqs = [] := by
  have calm : w.callingExpired = false := by
    rw [Bool.eq_false_iff, Ne, inv.calling]
    simp [idle]
  exact ⟨calm, inv.quiet calm⟩

/-- As long as no sequence number is used twice, it tells the timer. -/
theorem Inv.sequence {w : World} (inv : Inv w) (room : w.blocks < sequenceBound) {b : Nat} {c : Cell}
    (live : w.heap b = some c) : c.timer.sequence = b + 1 := by
  obtain ⟨old, number⟩ := inv.owned.live b c live
  rw [number]
  exact Nat.mod_eq_of_lt (by omega)

theorem Inv.calling_of_popped {w : World} {t : TimerPtr} (inv : Inv w) (popped : t ∈ w.activation.expired) :
    w.callingExpired = true := by
  rw [inv.calling]
  cases control : w.activation with
  | batch => exact ⟨_, _, _, _, rfl⟩
  | idle | destroyed => simp [control, Activation.expired] at popped

theorem Inv.user_alive {w : World} (user : w.userCode = true) : w.activation ≠ .destroyed := by
  intro gone
  simp [World.userCode, gone] at user

/-- The destructor deletes what is left. -/
theorem Inv.destroy {w : World} (inv : Inv w) (idle : w.activation = .idle) : Inv w.destroyed := by
  have owned := inv.owned
  have calm := inv.idle idle
  rw [idle] at owned
  have listed : ∀ b c, w.heap b = some c → b ∈ w.timers.elems.map (·.timer.block) := by
    intro b c alive
    have member := (owned.owner b c alive).resolve_right List.not_mem_nil
    exact List.mem_map.mpr ⟨_, member, rfl⟩
  have empty : ∀ b, w.destroyed.heap b = none := by
    intro b
    cases alive : w.heap b with
    | none => simp [World.destroyed, alive]
    | some c => exact if_pos (listed b c alive)
  have distinct : (w.timers.elems.map (·.timer.block)).Nodup :=
    List.pairwise_map.mpr owned.entry_blocks
  refine ⟨inv.fault, ⟨owned.next, ?_, ?_, ?_, ?_, ?_, .nil, ?_, ?_, ?_⟩, ?_, inv.quiet, List.suffix_rfl,
    fun _ => empty⟩
  · exact fun b c alive => absurd (alive.symm.trans (empty b)) (Option.some_ne_none _)
  · exact fun b b' c c' alive => absurd (alive.symm.trans (empty b)) (Option.some_ne_none _)
  · exact fun e member => absurd member (KeyedSet.notMem_empty e)
  · exact fun s t index => absurd index (Option.some_ne_none _).symm
  · exact fun t member => absurd member List.not_mem_nil
  · exact fun b c alive => absurd (alive.symm.trans (empty b)) (Option.some_ne_none _)
  · intro b
    simp only [empty b, and_true]
    refine List.mem_append.trans ⟨?_, fun old => ?_⟩
    · rintro (member | member)
      · exact ((owned.deleted b).mp member).1
      · obtain ⟨e, queued, rfl⟩ := List.mem_map.mp member
        obtain ⟨c, live, _⟩ := owned.entry e queued
        exact (owned.live _ _ live.1).1
    · cases alive : w.heap b with
      | none => exact Or.inl ((owned.deleted b).mpr ⟨old, alive⟩)
      | some c => exact Or.inr (listed b c alive)
  · refine List.nodup_append.mpr ⟨owned.once, distinct, ?_⟩
    rintro b member _ member' rfl
    obtain ⟨e, queued, rfl⟩ := List.mem_map.mp member'
    obtain ⟨c, live, _⟩ := owned.entry e queued
    exact absurd (live.1.symm.trans ((owned.deleted _).mp member).2) (Option.some_ne_none _)
  · simp [World.destroyed, calm.1]

theorem Move.inv {w w' : World} {a : Act} (inv : Inv w) (move : Move w a w') : Inv w' := by
  cases move with
  | fire => exact ⟨inv.fault, inv.owned.congr rfl rfl rfl rfl rfl rfl, inv.calling, inv.quiet, inv.rest, inv.destroyed⟩
  | insert _ user free =>
    obtain ⟨_, _, _, same⟩ := w.insertNew_frame _ _ _ _ _ _
    rw [same]
    exact ⟨inv.fault, (inv.owned.link free).congr rfl rfl rfl rfl rfl rfl, inv.calling, inv.quiet,
      inv.rest, fun gone => absurd gone (Inv.user_alive user)⟩
  | ignored => exact inv
  | missed =>
    split
    · rename_i calling
      exact ⟨inv.fault, inv.owned.congr rfl rfl rfl rfl rfl rfl, inv.calling,
        fun calm => absurd calling (Bool.eq_false_iff.mp calm), inv.rest, inv.destroyed⟩
    · exact inv
  | removed user _ _ index live =>
    obtain ⟨_, _, _, same⟩ := w.removed_frame _ _ _ _
    rw [same]
    refine ⟨inv.fault, (inv.owned.unlink index live).congr rfl rfl rfl rfl rfl rfl, inv.calling, ?_,
      inv.rest, fun gone => absurd gone (Inv.user_alive user)⟩
    intro calm
    have calm' : w.callingExpired = false := calm
    simp [World.unlink, calm', inv.quiet calm']
  | expire idle _ _ left =>
    have owned := inv.owned
    rw [idle] at owned
    refine ⟨inv.fault, (owned.popped left).congr rfl rfl rfl rfl rfl rfl, ?_, ?_, List.suffix_rfl, ?_⟩ <;>
      simp [World.popped]
  | call control live =>
    have rest := inv.rest
    have owned := inv.owned
    rw [control] at rest owned
    refine ⟨inv.fault, owned.congr rfl rfl rfl rfl rfl rfl, ?_, inv.quiet, (List.suffix_cons _ _).trans rest, ?_⟩
    · simpa [control] using inv.calling
    · simp
  | ret control =>
    have rest := inv.rest
    have owned := inv.owned
    rw [control] at rest owned
    refine ⟨inv.fault, owned.congr rfl rfl rfl rfl rfl rfl, ?_, inv.quiet, rest, ?_⟩
    · simpa [control] using inv.calling
    · simp
  | finish control _ loop owned =>
    obtain ⟨_, _, _, same⟩ := World.rearm_frame _ _
    obtain ⟨_, _, fault, calling, _⟩ := loop.frame
    rw [same]
    refine ⟨fault.trans inv.fault, owned.congr rfl rfl rfl rfl rfl rfl, ?_, fun _ => rfl, List.suffix_rfl, ?_⟩
    · simp [calling]
    · simp
  | destroy idle => exact inv.destroy idle

theorem created_append (acts : List Act) (a : Act) :
    created (acts ++ [a]) = created acts + if a.creates then 1 else 0 := by
  simp [created, List.countP_append, List.countP_singleton]

theorem run_inv {acts : List Act} {w : World} (reach : Run step start acts w) : Inv w :=
  Run.invariant reach .start fun inv move => (step_move inv move).inv inv

theorem run_blocks {acts : List Act} {w : World} (reach : Run step start acts w) : w.blocks = created acts := by
  induction reach with
  | start => rfl
  | next reach _ move ih => rw [(step_move (run_inv reach) move).blocks, ih, created_append]

/-- The second loop of `handleExpired` keeps the agreement of the indexes. -/
theorem Reinserted.indexed {now : Int} {batch : List TimerPtr} {w w' : World} (loop : Reinserted now batch w w')
    (owned : Owned batch w) (indexed : Indexed w) (room : w.blocks < sequenceBound) : Indexed w' := by
  induction loop with
  | done => exact indexed
  | again live _ _ _ ih => exact ih (owned.relink live now) (indexed.relink owned room live now) room
  | gone live _ _ ih => exact ih (owned.drop live) (indexed.drop owned live) room

theorem Move.indexed {w w' : World} {a : Act} (inv : Inv w) (move : Move w a w') (indexed : Indexed w)
    (room : w'.blocks < sequenceBound) : Indexed w' := by
  have count := move.blocks
  cases move with
  | insert _ _ free =>
    obtain ⟨_, _, _, same⟩ := w.insertNew_frame _ _ _ _ _ _
    rw [same] at room ⊢
    exact indexed.link inv.owned free room
  | missed => split <;> exact indexed
  | removed _ _ _ index live =>
    obtain ⟨_, _, _, same⟩ := w.removed_frame _ _ _ _
    rw [same] at room ⊢
    exact indexed.unlink inv.owned room index live
  | expire idle _ _ left =>
    have owned := inv.owned
    rw [idle] at owned
    exact indexed.popped owned room left
  | finish control _ loop =>
    obtain ⟨_, _, _, same⟩ := World.rearm_frame _ _
    rw [same] at room ⊢
    have owned := inv.owned
    rw [control] at owned
    exact loop.indexed (owned.congr rfl rfl rfl rfl rfl rfl) indexed (loop.frame.1 ▸ room)
  | destroy => exact fun e member => absurd member (KeyedSet.notMem_empty e)
  | _ => exact indexed

/-- Where every timer created so far has its own sequence number, the two
indexes agree. -/
theorem run_indexed {acts : List Act} {w : World} (reach : Run step start acts w)
    (room : created acts < sequenceBound) : Indexed w := by
  induction reach with
  | start => exact fun e member => absurd member (KeyedSet.notMem_empty e)
  | @next acts before w a reach _ move ih =>
    have bound := run_blocks (Run.next reach move)
    rw [created_append] at room bound
    exact (step_move (run_inv reach) move).indexed (run_inv reach) (ih (by omega)) (by omega)

end CoroNet.Timers
