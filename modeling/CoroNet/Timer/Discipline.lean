import CoroNet.Timer.Firing

namespace CoroNet.Timers

open Function Transition

/-- The calls of the timer so far allow one more at the time: the timer is
periodic if there are any, and each is an interval back. -/
def Rested (requests : Nat → Request) (log : List Firing) (b : Nat) (time : Int) : Prop :=
  ∀ f ∈ log, f.block = b → 0 < (requests b).interval ∧
    (fits64 (f.batch.now + (requests b).interval) = true → f.batch.now + (requests b).interval ≤ time)

/-- The timer is the one asked for; until its first call it has the expiration
asked for, too. -/
structure Holds (requests : Nat → Request) (log : List Firing) (b : Nat) (timer : Timer) : Prop where
  interval : timer.interval = (requests b).interval
  periodic : timer.repeat_ = true → 0 < (requests b).interval
  due : timer.expiration = (requests b).due ∨ ∃ f ∈ log, f.block = b

/-- Every live timer is the one asked for, and those queued have rested. -/
structure Accounts (requests : Nat → Request) (log : List Firing) (w : World) : Prop where
  cell : ∀ b c, w.heap b = some c → Holds requests log b c.timer
  queued : ∀ e ∈ w.timers, Rested requests log e.timer.block (max e.time w.clock)

theorem Rested.congr {requests requests' : Nat → Request} {log : List Firing} {b : Nat} {time : Int}
    (rested : Rested requests log b time) (same : requests' b = requests b) : Rested requests' log b time := by
  unfold Rested at rested ⊢
  rwa [same]

theorem Holds.congr {requests requests' : Nat → Request} {log : List Firing} {b : Nat} {timer : Timer}
    (holds : Holds requests log b timer) (same : requests' b = requests b) : Holds requests' log b timer := by
  obtain ⟨interval, periodic, due⟩ := holds
  rw [← same] at interval periodic due
  exact ⟨interval, periodic, due⟩

theorem Rested.mono {requests : Nat → Request} {log : List Firing} {b : Nat} {time time' : Int}
    (rested : Rested requests log b time) (later : time ≤ time') : Rested requests log b time' :=
  fun f member same => ⟨(rested f member same).1, fun fits => ((rested f member same).2 fits).trans later⟩

theorem Rested.later {requests : Nat → Request} {log : List Firing} {b : Nat} {time clock clock' : Int}
    (rested : Rested requests log b (max time clock)) (late : clock ≤ clock') :
    Rested requests log b (max time clock') :=
  rested.mono (by omega)

/-- The timers and the clock are all that the accounts look at. -/
theorem Accounts.congr {requests : Nat → Request} {log : List Firing} {w w' : World} (accounts : Accounts requests log w)
    (heap : w'.heap = w.heap) (timers : w'.timers = w.timers) (clock : w.clock ≤ w'.clock) :
    Accounts requests log w' := by
  refine ⟨fun b c live => accounts.cell b c (heap ▸ live), fun e member => ?_⟩
  have queued : e ∈ w.timers := timers ▸ member
  exact (accounts.queued e queued).later clock

/-- The call of an entry. -/
def Batch.call (batch : Batch) (e : Entry) : Firing := ⟨e.timer.block, batch, e.time⟩

/-- A batch in progress: the callbacks started are those before it and those
of the entries it has called, and every entry it popped had rested. -/
structure Calling (h : History) (old : List Firing) (called waiting : List Entry) : Prop where
  log : h.log = old ++ called.map h.batch.call
  before : ∀ f ∈ old, f.batch.number < h.batch.number ∧ f.batch.now ≤ h.batch.now
  sorted : (called ++ waiting).Pairwise fun e e' => e.time ≤ e'.time ∧ e.timer.block ≠ e'.timer.block
  live : ∀ e ∈ called ++ waiting, ∃ c, h.world.Points e.timer c ∧ c.timer.expiration = e.time
  popped : ∀ e ∈ called ++ waiting, e.time ≤ h.batch.now ∧ e.timer.block < h.batch.blocks
  due : ∀ e ∈ h.batch.pending, e.time ≤ h.batch.now → e ∈ called ++ waiting
  rested : ∀ e ∈ called ++ waiting, Rested h.requests old e.timer.block h.batch.now

/-- What holds of the history at all times. -/
structure Kept (h : History) : Prop where
  inv : Inv h.world
  started : h.world.started = h.log.map Firing.block
  fires : ∀ before g after, h.log = before ++ g :: after → Fires h.requests before g
  known : ∀ f ∈ h.log, f.block < h.world.blocks ∧ f.batch.number ≤ h.batch.number ∧ f.batch.now ≤ h.world.clock
  accounts : Accounts h.requests h.log h.world
  calling : ∀ now expired rest running, h.world.activation = .batch now expired rest running →
    h.batch.now = now ∧ h.batch.blocks ≤ h.world.blocks ∧ now ≤ h.world.clock ∧ ∃ old called waiting,
      expired = (called ++ waiting).map Entry.timer ∧ rest = waiting.map Entry.timer ∧ Calling h old called waiting

theorem Kept.start : Kept {} where
  inv := .start
  started := rfl
  fires := fun before g after empty => by simp at empty
  known := fun f member => absurd member List.not_mem_nil
  accounts := ⟨fun b c live => absurd live.symm (Option.some_ne_none c),
    fun e member => absurd member (KeyedSet.notMem_empty e)⟩
  calling := fun now expired rest running control => Activation.noConfusion control

/-- What happens to other timers does not matter to a batch in progress. -/
theorem Calling.congr {h h' : History} {old : List Firing} {called waiting : List Entry}
    (calling : Calling h old called waiting) (log : h'.log = h.log) (batch : h'.batch = h.batch)
    (requests : ∀ b < h.batch.blocks, h'.requests b = h.requests b)
    (live : ∀ e ∈ called ++ waiting, ∀ c, h.world.Points e.timer c → h'.world.Points e.timer c) :
    Calling h' old called waiting := by
  refine ⟨?_, ?_, calling.sorted, fun e member => ?_, ?_, ?_, fun e member => ?_⟩
  · rw [log, batch]
    exact calling.log
  · rw [batch]
    exact calling.before
  · obtain ⟨c, here, time⟩ := calling.live e member
    exact ⟨c, live e member c here, time⟩
  · rw [batch]
    exact calling.popped
  · rw [batch]
    exact calling.due
  · rw [batch]
    exact (calling.rested e member).congr (requests _ (calling.popped e member).2)

/-- A step that calls nothing and leaves the timers alone. -/
theorem Kept.quiet {h : History} {w : World} (kept : Kept h) (inv : Inv w) (heap : w.heap = h.world.heap)
    (timers : w.timers = h.world.timers) (blocks : w.blocks = h.world.blocks)
    (started : w.started = h.world.started) (clock : h.world.clock ≤ w.clock)
    (control : ∀ now expired rest running, w.activation = .batch now expired rest running →
      ∃ running', h.world.activation = .batch now expired rest running') : Kept { h with world := w } where
  inv := inv
  started := started.trans kept.started
  fires := kept.fires
  known := by
    intro f member
    obtain ⟨block, number, now⟩ := kept.known f member
    exact ⟨by rw [blocks]; exact block, number, now.trans clock⟩
  accounts := kept.accounts.congr heap timers clock
  calling := by
    intro now expired rest running active
    obtain ⟨running', active'⟩ := control now expired rest running active
    obtain ⟨same, within, late, old, called, waiting, all, left, calling⟩ := kept.calling _ _ _ _ active'
    refine ⟨same, by rw [blocks]; exact within, late.trans clock, old, called, waiting, all, left, ?_⟩
    exact calling.congr rfl rfl (fun _ _ => rfl) fun e _ c live => ⟨by rw [heap]; exact live.1, live.2⟩

theorem Accounts.link {requests : Nat → Request} {log : List Firing} {w : World} {detached : List TimerPtr}
    {callback addr : Nat} {delay interval now due : Int} (accounts : Accounts requests log w) (owned : Owned detached w)
    (free : w.canAllocate addr = true) (late : w.clock ≤ now) (expires : wrap64 (now + delay) = due)
    (fresh : ∀ f ∈ log, f.block ≠ w.blocks) :
    Accounts (update requests w.blocks ⟨due, interval⟩) log (w.link callback delay interval now addr) := by
  have others : ∀ b, b ≠ w.blocks → update requests w.blocks ⟨due, interval⟩ b = requests b :=
    fun b different => update_of_ne different _ _
  constructor
  case cell =>
    intro b c live
    rcases World.link_heap live with ⟨rfl, rfl⟩ | ⟨different, live⟩
    · refine ⟨by simp [Timer.new], fun again => ?_, Or.inl ?_⟩
      · simpa [Timer.new] using again
      · simpa [Timer.new] using expires
    · exact (accounts.cell b c live).congr (others b different)
  case queued =>
    intro e member f called block
    have different : e.timer.block ≠ w.blocks := block ▸ fresh f called
    rcases (owned.link_mem free).mp member with rfl | member
    · exact absurd rfl different
    · exact ((accounts.queued e member).congr (others _ different)).later late f called block

theorem Kept.insert {h : History} {callback addr : Nat} {delay interval now now' due : Int} (kept : Kept h)
    (free : h.world.canAllocate addr = true) (late : h.world.clock ≤ now) (later : now ≤ now')
    (expires : wrap64 (now + delay) = due) (inv : Inv (h.world.insertNew callback delay interval now now' addr)) :
    Kept { h with
      world := h.world.insertNew callback delay interval now now' addr
      requests := update h.requests h.world.blocks ⟨due, interval⟩ } := by
  have clock : now ≤ (h.world.insertNew callback delay interval now now' addr).clock :=
    h.world.insertNew_clock_ge later
  obtain ⟨fd, clock', overflow, same⟩ := h.world.insertNew_frame callback delay interval now now' addr
  rw [same] at inv clock ⊢
  have fresh : ∀ f ∈ h.log, f.block ≠ h.world.blocks := fun f member => (kept.known f member).1.ne
  constructor
  case inv => exact inv
  case started => exact kept.started
  case fires =>
    intro before g after split
    have member : g ∈ h.log := by
      rw [split]
      exact List.mem_append_right _ (List.mem_cons_self ..)
    exact (kept.fires before g after split).congr (update_of_ne (fresh g member) _ _)
  case known =>
    intro f member
    obtain ⟨block, number, old⟩ := kept.known f member
    exact ⟨block.trans (Nat.lt_succ_self _), number, (old.trans late).trans clock⟩
  case accounts => exact (kept.accounts.link kept.inv.owned free late expires fresh).congr rfl rfl clock
  case calling =>
    intro now expired rest running active
    obtain ⟨same, within, begun, old, called, waiting, all, left, calling⟩ := kept.calling _ _ _ _ active
    refine ⟨same, within.trans (Nat.le_succ _), (begun.trans late).trans clock, old, called, waiting, all, left, ?_⟩
    refine calling.congr rfl rfl (fun b below => update_of_ne (by omega) _ _) fun e _ c live => ?_
    exact World.link_points kept.inv.owned live

theorem Kept.removed {h : History} {seq : Nat} {t : TimerPtr} {c : Cell} {now : Int} {w : World} (kept : Kept h)
    (index : h.world.active seq = some t) (live : h.world.Points t c)
    (same : w = if h.world.IsTop t then (h.world.unlink seq t c).rearm now else h.world.unlink seq t c)
    (inv : Inv w) (clock : h.world.clock ≤ w.clock) : Kept { h with world := w } := by
  obtain ⟨fd, clock', overflow, frame⟩ := h.world.removed_frame seq t c now
  obtain rfl := same.trans frame
  constructor
  case inv => exact inv
  case started => exact kept.started
  case fires => exact kept.fires
  case known =>
    intro f member
    obtain ⟨block, number, old⟩ := kept.known f member
    exact ⟨block, number, old.trans clock⟩
  case accounts =>
    refine ⟨fun b d other => kept.accounts.cell b d (World.delete_heap other).2, fun e member => ?_⟩
    have queued := ((kept.inv.owned.unlink_mem (s := seq) live).mp member).1
    exact (kept.accounts.queued e queued).later clock
  case calling =>
    intro now expired rest running active
    obtain ⟨same, within, old', old, called, waiting, all, left, calling⟩ := kept.calling _ _ _ _ active
    refine ⟨same, within, old'.trans clock, old, called, waiting, all, left, ?_⟩
    refine calling.congr rfl rfl (fun _ _ => rfl) fun e member d other => ?_
    have popped : e.timer ≠ t := fun top => kept.inv.owned.not_detached index ?_
    · exact World.unlink_points (s := seq) live popped other
    have active' : h.world.activation = .batch now expired rest running := active
    rw [active']
    show t ∈ expired
    rw [all, ← top]
    exact List.mem_map_of_mem member

theorem Kept.expire {h : History} {completed : Bool} {now : Int} {active : Nat → Option TimerPtr} (kept : Kept h)
    (late : h.world.clock ≤ now) (inv : Inv ((h.world.consume completed).popped now active)) :
    Kept { h with
      world := (h.world.consume completed).popped now active
      batch := ⟨h.batch.number + 1, now, h.world.timers.elems, h.world.blocks⟩ } := by
  have taken : ∀ e ∈ h.world.due now, e ∈ h.world.timers := fun e member => World.mem_timers.mpr (Or.inl member)
  constructor
  case inv => exact inv
  case started => exact kept.started
  case fires => exact kept.fires
  case known =>
    intro f member
    obtain ⟨block, number, old⟩ := kept.known f member
    exact ⟨block, number.trans (Nat.le_succ _), old.trans late⟩
  case accounts =>
    refine ⟨kept.accounts.cell, fun e member => ?_⟩
    have queued : e ∈ h.world.timers := World.mem_timers.mpr (Or.inr member)
    exact (kept.accounts.queued e queued).later late
  case calling =>
    rintro _ _ _ _ ⟨⟩
    refine ⟨rfl, le_rfl, le_rfl, h.log, [], h.world.due now, rfl, rfl, ?_⟩
    have owned := kept.inv.owned
    constructor
    case log => simp
    case before =>
      intro f member
      obtain ⟨_, number, begun⟩ := kept.known f member
      exact ⟨Nat.lt_succ_of_le number, begun.trans late⟩
    case sorted =>
      refine (KeyedSet.popWhile_sorted (s := h.world.timers)).imp_of_mem fun {e e'} member member' lt => ?_
      refine ⟨Entry.time_le lt.le, fun same => ?_⟩
      obtain ⟨c, live, _⟩ := owned.entry e (taken e member)
      obtain ⟨c', live', _⟩ := owned.entry e' (taken e' member')
      obtain rfl := owned.entry_timer (taken e member) (taken e' member') (live'.eq_of_block live same)
      exact lt.false
    case live => exact fun e member => owned.entry e (taken e member)
    case popped =>
      intro e member
      obtain ⟨c, live, _⟩ := owned.entry e (taken e member)
      exact ⟨World.due_le member, (owned.live _ _ live.1).1⟩
    case due =>
      intro e member due
      exact (World.mem_timers.mp member).resolve_right fun left => absurd due (not_le.mpr (World.later_lt left))
    case rested =>
      intro e member
      exact (kept.accounts.queued e (taken e member)).mono (max_le (World.due_le member) late)

/-- The last element of a list, or one before it. -/
theorem split_snoc {α : Type*} {log before after : List α} {x g : α} (split : log ++ [x] = before ++ g :: after) :
    (before = log ∧ g = x) ∨ ∃ after', log = before ++ g :: after' := by
  rcases List.eq_nil_or_concat after with rfl | ⟨after', y, rfl⟩
  · obtain ⟨same, last⟩ := List.append_inj' split rfl
    exact Or.inl ⟨same.symm, (List.singleton_inj.mp last).symm⟩
  · have regroup : before ++ g :: (after' ++ [y]) = (before ++ g :: after') ++ [y] := by simp
    rw [List.concat_eq_append, regroup] at split
    exact Or.inr ⟨after', (List.append_inj' split rfl).1⟩

/-- A callback that has been started did not come too early. -/
theorem Kept.asked {h : History} (kept : Kept h) {f : Firing} (member : f ∈ h.log) :
    (h.requests f.block).due ≤ f.batch.now := by
  obtain ⟨before, after, split⟩ := List.append_of_mem member
  exact (kept.fires before f after split).asked

/-- A callback started so far, when the batch comes to an entry: it belongs to
an earlier batch, or to an entry popped before. -/
theorem Calling.member {h : History} {old : List Firing} {called waiting : List Entry} {e : Entry}
    (calling : Calling h old called (e :: waiting)) {f : Firing} (member : f ∈ h.log) :
    (f ∈ old ∧ f.batch.number < h.batch.number) ∨
      (f.batch = h.batch ∧ f.expiration ≤ e.time ∧ f.block ≠ e.timer.block) := by
  rw [calling.log] at member
  rcases List.mem_append.mp member with before | now
  · exact Or.inl ⟨before, (calling.before f before).1⟩
  · obtain ⟨e', popped, rfl⟩ := List.mem_map.mp now
    exact Or.inr ⟨rfl, (List.pairwise_append.mp calling.sorted).2.2 e' popped e (List.mem_cons_self ..)⟩

theorem Calling.fires {h : History} {old : List Firing} {called waiting : List Entry} {e : Entry}
    (kept : Kept h) (calling : Calling h old called (e :: waiting)) :
    Fires h.requests h.log (h.batch.call e) := by
  have here : e ∈ called ++ e :: waiting := List.mem_append_right _ (List.mem_cons_self ..)
  obtain ⟨due, created⟩ := calling.popped e here
  constructor
  case late => exact due
  case asked =>
    obtain ⟨c, live, time⟩ := calling.live e here
    rcases (kept.accounts.cell _ c live.1).due with first | ⟨f, member, same⟩
    · exact (first.symm.trans time).le.trans due
    · rcases calling.member member with ⟨before, _⟩ | ⟨_, _, different⟩
      · have asked := kept.asked member
        rw [same] at asked
        exact asked.trans (calling.before f before).2
      · exact absurd same different
  case order =>
    intro f member same
    rcases calling.member member with ⟨_, earlier⟩ | ⟨_, order, _⟩
    · exact absurd same earlier.ne
    · exact order
  case earlier =>
    intro e' pending smaller
    have less : e'.time < e.time := smaller
    rcases List.mem_append.mp (calling.due e' pending (less.le.trans due)) with member | member
    · refine ⟨h.batch.call e', ?_, rfl, rfl⟩
      rw [calling.log]
      exact List.mem_append_right _ (List.mem_map_of_mem member)
    · rcases List.mem_cons.mp member with rfl | member
      · exact absurd less (lt_irrefl _)
      · have sorted := (List.pairwise_cons.mp (List.pairwise_append.mp calling.sorted).2.1).1 e' member
        exact absurd less (not_lt.mpr sorted.1)
  case once =>
    intro f member same
    rcases calling.member member with ⟨_, earlier⟩ | ⟨_, _, different⟩
    · exact absurd same earlier.ne
    · exact different
  case old => exact created
  case periodic =>
    intro f member same
    rcases calling.member member with ⟨before, _⟩ | ⟨_, _, different⟩
    · exact (calling.rested e here f before same).1
    · exact absurd same different
  case spacing =>
    intro f member same
    rcases calling.member member with ⟨before, _⟩ | ⟨_, _, different⟩
    · exact (calling.rested e here f before same).2
    · exact absurd same different

/-- The callback of a timer that is not queued. -/
theorem Accounts.called {requests : Nat → Request} {log : List Firing} {w : World} {g : Firing}
    (accounts : Accounts requests log w) (absent : ∀ e ∈ w.timers, e.timer.block ≠ g.block) :
    Accounts requests (log ++ [g]) w := by
  constructor
  case cell =>
    intro b c live
    obtain ⟨interval, periodic, due⟩ := accounts.cell b c live
    exact ⟨interval, periodic, due.imp_right fun ⟨f, member, block⟩ => ⟨f, List.mem_append_left _ member, block⟩⟩
  case queued =>
    intro e queued f member block
    rcases List.mem_append.mp member with member | member
    · exact accounts.queued e queued f member block
    · obtain rfl := List.mem_singleton.mp member
      exact absurd block.symm (absent e queued)

/-- The batch goes on to the next of its entries. -/
theorem Calling.next {h h' : History} {old : List Firing} {called waiting : List Entry} {e : Entry}
    (calling : Calling h old called (e :: waiting)) (log : h'.log = h.log ++ [h.batch.call e])
    (batch : h'.batch = h.batch) (requests : h'.requests = h.requests) (heap : h'.world.heap = h.world.heap) :
    Calling h' old (called ++ [e]) waiting := by
  have regroup : (called ++ [e]) ++ waiting = called ++ e :: waiting := by simp
  constructor
  case log => rw [log, batch, calling.log, List.map_append, List.append_assoc, List.map_singleton]
  case before =>
    rw [batch]
    exact calling.before
  case sorted =>
    rw [regroup]
    exact calling.sorted
  case live =>
    rw [regroup]
    unfold World.Points
    rw [heap]
    exact calling.live
  case popped =>
    rw [regroup, batch]
    exact calling.popped
  case due =>
    rw [regroup, batch]
    exact calling.due
  case rested =>
    rw [regroup, batch, requests]
    exact calling.rested

theorem Kept.call {h : History} {now : Int} {expired rest : List TimerPtr} {t : TimerPtr} {c : Cell} (kept : Kept h)
    (control : h.world.activation = .batch now expired (t :: rest) false) (live : h.world.Points t c)
    (inv : Inv { h.world with
      activation := .batch now expired rest true
      started := h.world.started ++ [t.block] }) :
    Kept { h with
      world := { h.world with
        activation := .batch now expired rest true
        started := h.world.started ++ [t.block] }
      log := h.log ++ h.world.firing h.batch } := by
  obtain ⟨same, within, begun, old, called, waiting, all, left, calling⟩ := kept.calling _ _ _ _ control
  obtain ⟨e, waiting, rfl, rfl, rfl⟩ := List.map_eq_cons_iff.mp left.symm
  have here : e ∈ called ++ e :: waiting := List.mem_append_right _ (List.mem_cons_self ..)
  obtain ⟨d, live', time⟩ := calling.live e here
  obtain rfl := live.unique live'
  have next : h.world.firing h.batch = [h.batch.call e] := by
    simp [World.firing, control, live.deref, time, Batch.call]
  have fires := calling.fires kept
  rw [next]
  constructor
  case inv => exact inv
  case started => simp [kept.started, Batch.call]
  case fires =>
    intro before g after split
    rcases split_snoc split with ⟨rfl, rfl⟩ | ⟨after', split⟩
    · exact fires
    · exact kept.fires before g after' split
  case known =>
    intro f member
    rcases List.mem_append.mp member with member | member
    · exact kept.known f member
    · obtain rfl := List.mem_singleton.mp member
      exact ⟨fires.old.trans_le within, le_rfl, same.le.trans begun⟩
  case accounts =>
    refine (kept.accounts.called fun e' queued block => ?_).congr rfl rfl le_rfl
    obtain ⟨c', other, _⟩ := kept.inv.owned.entry e' queued
    have popped : e.timer ∈ h.world.activation.expired := by
      rw [control]
      show e.timer ∈ expired
      rw [all]
      exact List.mem_map_of_mem here
    exact absurd (live.eq_of_block other block) ((kept.inv.owned.batch _ popped).2 e' queued)
  case calling =>
    rintro _ _ _ _ ⟨⟩
    exact ⟨same, within, begun, old, called ++ [e], waiting, by simp [all], rfl, calling.next rfl rfl rfl rfl⟩

/-- The second loop of `handleExpired` puts a called timer back an interval
after the clock of the batch. -/
theorem Reinserted.accounts {requests : Nat → Request} {log : List Firing} {now : Int} {batch : List TimerPtr}
    {w w' : World} (loop : Reinserted now batch w w') (owned : Owned batch w) (late : now ≤ w.clock)
    (called : ∀ t ∈ batch, (∃ f ∈ log, f.block = t.block) ∧ ∀ f ∈ log, f.block = t.block → f.batch.now = now ∨
      (fits64 (f.batch.now + (requests t.block).interval) = true → f.batch.now + (requests t.block).interval ≤ now))
    (accounts : Accounts requests log w) : Accounts requests log w' := by
  induction loop with
  | done => exact accounts
  | @again w _ t c _ live again _ _ ih =>
    obtain ⟨once, calls⟩ := called t (List.mem_cons_self ..)
    obtain ⟨interval, periodic, _⟩ := accounts.cell _ c live.1
    refine ih (owned.relink live now) late (fun p member => called p (List.mem_cons_of_mem _ member)) ⟨?_, ?_⟩
    · intro b d other
      rcases World.relink_heap other with ⟨rfl, rfl⟩ | ⟨_, other⟩
      · exact ⟨interval, periodic, Or.inr once⟩
      · exact accounts.cell b d other
    · intro e member
      rcases (owned.relink_mem live).mp member with rfl | member
      · refine fun f member same => ⟨periodic again, fun fits => ?_⟩
        rcases calls f member same with this_batch | before
        · have sum : wrap64 (now + c.timer.interval) = f.batch.now + (requests t.block).interval := by
            rw [interval, ← this_batch, wrap64_of_fits fits]
          exact sum.ge.trans (le_max_left _ _)
        · exact ((before fits).trans late).trans (le_max_right _ _)
      · exact accounts.queued e member
  | gone live _ _ ih =>
    refine ih (owned.drop live) late (fun p member => called p (List.mem_cons_of_mem _ member)) ⟨?_, accounts.queued⟩
    exact fun b d other => accounts.cell b d (World.delete_heap other).2

theorem Kept.finish {h : History} {now now' : Int} {expired : List TimerPtr} {w : World} (kept : Kept h)
    (control : h.world.activation = .batch now expired [] false) (late : h.world.clock ≤ now')
    (loop : Reinserted now expired { h.world with callingExpired := false } w)
    (inv : Inv (World.rearm { w with cancelingSeqs := [], activation := .idle } now')) :
    Kept { h with world := World.rearm { w with cancelingSeqs := [], activation := .idle } now' } := by
  obtain ⟨blocks, _, _, _, _, _, started, clock⟩ := loop.frame
  have clock : w.clock = h.world.clock := clock
  have begun := World.rearm_clock_le (w := { w with cancelingSeqs := [], activation := .idle }) (clock.le.trans late)
  have later : h.world.clock ≤ _ := clock.ge.trans begun
  obtain ⟨fd, clock', overflow, same⟩ :=
    World.rearm_frame { w with cancelingSeqs := [], activation := .idle } now'
  rw [same] at inv later ⊢
  constructor
  case inv => exact inv
  case started => exact started.trans kept.started
  case fires => exact kept.fires
  case known =>
    intro f member
    obtain ⟨block, number, old⟩ := kept.known f member
    exact ⟨blocks.symm ▸ block, number, old.trans later⟩
  case accounts =>
    obtain ⟨rfl, within, begun, old, called, waiting, all, left, calling⟩ := kept.calling _ _ _ _ control
    obtain rfl : waiting = [] := List.map_eq_nil_iff.mp left.symm
    have owned := kept.inv.owned
    rw [control] at owned
    have before : Accounts h.requests h.log { h.world with callingExpired := false } :=
      kept.accounts.congr rfl rfl le_rfl
    refine (loop.accounts (owned.congr rfl rfl rfl rfl rfl rfl) begun (fun t member => ?_) before).congr rfl rfl ?_
    · obtain ⟨e, popped, rfl⟩ := List.mem_map.mp (all ▸ member)
      rw [List.append_nil] at popped
      refine ⟨⟨h.batch.call e, ?_, rfl⟩, fun f member same => ?_⟩
      · rw [calling.log]
        exact List.mem_append_right _ (List.mem_map_of_mem popped)
      · rw [calling.log] at member
        rcases List.mem_append.mp member with member | member
        · exact Or.inr (calling.rested e (List.mem_append_left _ popped) f member same).2
        · obtain ⟨_, _, rfl⟩ := List.mem_map.mp member
          exact Or.inl rfl
    · exact clock.le.trans later
  case calling => exact fun _ _ _ _ active => Activation.noConfusion active

theorem Kept.destroy {h : History} (kept : Kept h) (inv : Inv h.world.destroyed) :
    Kept { h with world := h.world.destroyed } where
  inv := inv
  started := kept.started
  fires := kept.fires
  known := kept.known
  accounts := by
    refine ⟨fun b c live => ?_, fun e member => absurd member (KeyedSet.notMem_empty e)⟩
    exact absurd live.symm (by simp [inv.destroyed rfl b])
  calling := fun _ _ _ _ active => Activation.noConfusion active

/-- The requests after an action, as the queue takes them: a time that has no
64-bit value wraps. -/
def Act.expects (requests : Nat → Request) (b : Nat) : Act → Nat → Request
  | .add _ delay now _ _ => update requests b ⟨wrap64 (now + delay), 0⟩
  | .addPeriodic _ interval now _ _ => update requests b ⟨wrap64 (now + interval), interval⟩
  | _ => requests

theorem Kept.expects {h h' : History} {a : Act} {requests : Nat → Request} (kept : Kept { h with requests := requests })
    (move : h.step a = some h') : Kept { h' with requests := a.expects requests h.world.blocks } := by
  obtain ⟨move, same⟩ := History.step_record move
  have move := step_move kept.inv move
  have inv := move.inv kept.inv
  have clock := move.clock
  rw [same]
  generalize h'.world = w at move inv clock
  cases move with
  | fire => exact kept.quiet inv rfl rfl rfl rfl clock fun _ _ _ running active => ⟨running, active⟩
  | insert kind _ free late later =>
    rcases kind with ⟨rfl, rfl⟩ | ⟨rfl, rfl⟩
    · exact kept.insert free late later rfl inv
    · exact kept.insert free late later rfl inv
  | ignored => exact kept
  | missed =>
    by_cases calling : h.world.callingExpired = true
    · rw [if_pos calling] at inv ⊢
      exact kept.quiet inv rfl rfl rfl rfl le_rfl fun _ _ _ running active => ⟨running, active⟩
    · rw [if_neg calling]
      exact kept
  | removed _ _ _ index live => exact kept.removed index live rfl inv clock
  | expire _ late => exact kept.expire late inv
  | call control live => exact kept.call control live inv
  | ret control =>
    refine kept.quiet inv rfl rfl rfl rfl le_rfl ?_
    rintro _ _ _ _ ⟨⟩
    exact ⟨true, control⟩
  | finish control late loop => exact kept.finish control late loop inv
  | destroy => exact kept.destroy inv

theorem Kept.step {h h' : History} {a : Act} (kept : Kept h) (fits : a.fits = true) (move : h.step a = some h') :
    Kept h' := by
  have same : h'.requests = a.expects h.requests h.world.blocks := by
    rw [(History.step_record move).2]
    cases a with
    | add _ delay now =>
      simp only [Act.expects, wrap64_of_fits (x := now + delay) fits]
      rfl
    | addPeriodic _ interval now =>
      simp only [Act.expects, wrap64_of_fits (x := now + interval) fits]
      rfl
    | _ => rfl
  have next : Kept { h' with requests := a.expects h.requests h.world.blocks } := Kept.expects kept move
  rwa [← same] at next

/-- In every run the history is right about what the queue took the requests for. -/
theorem run_kept {acts : List Act} {h : History} (reach : Run History.step {} acts h) :
    ∃ requests, Kept { h with requests := requests } :=
  reach.invariant (P := fun h => ∃ requests, Kept { h with requests := requests }) ⟨_, Kept.start⟩
    fun ⟨_, kept⟩ move => ⟨_, kept.expects move⟩

/-- Every callback that a queue starts is due in its batch, comes in order
after all that were pending and earlier, is neither one created in the batch
nor a second one of its timer in it, and comes again only for a periodic timer
and an interval later. -/
theorem firing_discipline {acts : List Act} {h : History}
    (reach : RunWhile History.step (fun _ a => a.fits = true) {} acts h) :
    h.world.started = h.log.map Firing.block ∧
      ∀ before g after, h.log = before ++ g :: after → Fires h.requests before g := by
  have kept : Kept h := reach.invariant Kept.start fun kept fits move => kept.step fits move
  exact ⟨kept.started, kept.fires⟩

/-- Two batches; the first callback creates a timer that is already due and throws. -/
def twoBatches : List Act :=
  [.add 1 5 0 0 16, .addPeriodic 2 3 0 0 32, .expire false 10, .call, .add 3 (-4) 10 10 48, .ret true, .call,
    .ret false, .finish 11, .expire false 20, .call, .ret false, .call]

theorem twoBatches_disciplined : ∃ h, RunWhile History.step (fun _ a => a.fits = true) {} twoBatches h ∧
    h.world.started = [1, 0, 2, 1] ∧ ∃ before g, h.log = before ++ [g] ∧ g.block = 1 ∧ Fires h.requests before g := by
  have reach : RunWhile History.step (fun _ a => a.fits = true) {} twoBatches (after History.step {} twoBatches) :=
    guarded_run (run_eq_some rfl)
  have split : (after History.step {} twoBatches).log =
      (after History.step {} twoBatches).log.take 3 ++ [⟨1, ⟨2, 20, [⟨6, ⟨48, 2⟩⟩, ⟨13, ⟨32, 1⟩⟩], 3⟩, 13⟩] := rfl
  exact ⟨_, reach, rfl, _, _, split, rfl, (firing_discipline reach).2 _ _ _ split⟩

end CoroNet.Timers
