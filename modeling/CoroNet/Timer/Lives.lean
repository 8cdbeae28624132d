import CoroNet.Timer.Cancel
import CoroNet.Timer.Firing

namespace CoroNet.Timers

open Function Transition

/-- What becomes of a timer, whatever the others do. -/
inductive Fate
  | unborn
  | pending (timer : Timer)
  | taken (timer : Timer) (now : Int) (canceled : Bool)
  | gone

/-- The timer and how often it has been called, or taken by a batch to be called. -/
structure Life where
  fate : Fate
  calls : Nat

/-- What can happen to a timer. -/
inductive Event
  | create (timer : Timer)
  | expire (now : Int)
  | cancel
  | finish
  | destroy

def Life.next : Life → Event → Life
  | ⟨.unborn, calls⟩, .create timer => ⟨.pending timer, calls⟩
  | ⟨.pending timer, calls⟩, .expire now =>
    if timer.expiration ≤ now then ⟨.taken timer now false, calls + 1⟩ else ⟨.pending timer, calls⟩
  | ⟨.pending _, calls⟩, .cancel => ⟨.gone, calls⟩
  | ⟨.pending _, calls⟩, .destroy => ⟨.gone, calls⟩
  | ⟨.taken timer now _, calls⟩, .cancel => ⟨.taken timer now true, calls⟩
  | ⟨.taken timer now canceled, calls⟩, .finish =>
    if timer.repeat_ && !canceled then ⟨.pending (timer.restart now), calls⟩ else ⟨.gone, calls⟩
  | life, _ => life

/-- What the action is to a timer, in a queue that has created so many. -/
def Act.event (blocks b : Nat) : Act → Option Event
  | .add callback delay now _ _ =>
    if b = blocks then some (.create (Timer.new callback (wrap64 (now + delay)) 0 ((b + 1) % sequenceBound))) else none
  | .addPeriodic callback interval now _ _ =>
    if b = blocks then some (.create (Timer.new callback (wrap64 (now + interval)) interval ((b + 1) % sequenceBound)))
    else none
  | .cancel id _ => if id.timer ≠ none ∧ id.seq = b + 1 then some .cancel else none
  | .expire _ now => some (.expire now)
  | .finish _ => some .finish
  | .destroy => some .destroy
  | .fire _ | .call | .ret _ => none

/-- What a run is to a timer. -/
def events (b : Nat) : Nat → List Act → List Event
  | _, [] => []
  | blocks, a :: rest => (a.event blocks b).toList ++ events b (blocks + if a.creates then 1 else 0) rest

/-- The clock of the batch in progress. -/
def Activation.now : Activation → Int
  | .batch now _ _ _ => now
  | _ => 0

namespace World

def fate (w : World) (b : Nat) : Fate :=
  match w.heap b with
  | none => if b < w.blocks then .gone else .unborn
  | some cell =>
    if b ∈ w.activation.expired.map TimerPtr.block then
      .taken cell.timer w.activation.now (decide (cell.timer.sequence ∈ w.cancelingSeqs))
    else .pending cell.timer

def calls (w : World) (b : Nat) : Nat := w.started.count b + (w.activation.rest.map TimerPtr.block).count b

def life (w : World) (b : Nat) : Life := ⟨w.fate b, w.calls b⟩

variable {w w' : World} {b : Nat} {c : Cell} {t : TimerPtr} {now : Int}

theorem fate_dead (dead : w.heap b = none) : w.fate b = if b < w.blocks then .gone else .unborn := by
  simp only [fate, dead]

theorem fate_pending (live : w.heap b = some c) (queued : b ∉ w.activation.expired.map TimerPtr.block) :
    w.fate b = .pending c.timer := by
  simp only [fate, live, if_neg queued]

theorem fate_taken (live : w.heap b = some c) (popped : b ∈ w.activation.expired.map TimerPtr.block) :
    w.fate b = .taken c.timer w.activation.now (decide (c.timer.sequence ∈ w.cancelingSeqs)) := by
  simp only [fate, live, if_pos popped]

/-- What the queue remembers of a timer. -/
theorem life_congr (heap : w'.heap b = w.heap b) (blocks : b < w'.blocks ↔ b < w.blocks)
    (activation : w'.activation = w.activation) (started : w'.started = w.started)
    (canceling : ∀ c, w.heap b = some c → (c.timer.sequence ∈ w'.cancelingSeqs ↔ c.timer.sequence ∈ w.cancelingSeqs)) :
    w'.life b = w.life b := by
  simp only [life, fate, calls, heap, blocks, activation, started]
  cases live : w.heap b with
  | none => rfl
  | some c => simp only [canceling c live]

end World

variable {w w' : World} {b : Nat} {c : Cell} {t : TimerPtr} {now : Int}

/-- A live timer outside the batch is in both indexes. -/
theorem Inv.pending (inv : Inv w) (indexed : Indexed w) (live : w.heap b = some c)
    (queued : b ∉ w.activation.expired.map TimerPtr.block) :
    ⟨c.timer.expiration, ⟨c.addr, b⟩⟩ ∈ w.timers ∧ w.active c.timer.sequence = some ⟨c.addr, b⟩ := by
  have member := (inv.owned.owner b c live).resolve_right fun popped => queued (List.mem_map.mpr ⟨_, popped, rfl⟩)
  exact ⟨member, indexed _ member c ⟨live, rfl⟩⟩

theorem Inv.blocks (inv : Inv w) (popped : b ∈ w.activation.expired.map TimerPtr.block) :
    ∃ c, w.heap b = some c ∧ b < w.blocks := by
  obtain ⟨t, member, rfl⟩ := List.mem_map.mp popped
  obtain ⟨⟨c, live⟩, _⟩ := inv.owned.batch t member
  exact ⟨c, live.1, (inv.owned.live _ c live.1).1⟩

theorem link_life (inv : Inv w) (callback : Nat) (delay interval now : Int) (addr b : Nat) :
    (w.link callback delay interval now addr).life b =
      if b = w.blocks then
        (w.life b).next (.create (Timer.new callback (wrap64 (now + delay)) interval ((b + 1) % sequenceBound)))
      else w.life b := by
  by_cases new : b = w.blocks
  · subst new
    have dead : w.heap w.blocks = none := by
      refine Option.eq_none_iff_forall_ne_some.mpr fun c live => ?_
      exact absurd (inv.owned.live _ c live).1 (lt_irrefl _)
    have outside : w.blocks ∉ w.activation.expired.map TimerPtr.block := by
      intro popped
      obtain ⟨c, _, old⟩ := inv.blocks popped
      exact absurd old (lt_irrefl _)
    have born : (w.link callback delay interval now addr).heap w.blocks =
        some ⟨addr, Timer.new callback (wrap64 (now + delay)) interval w.nextSeq⟩ := update_self _ _ _
    rw [if_pos rfl, World.life, World.life, World.fate_pending born outside, World.fate_dead dead,
      if_neg (lt_irrefl _), inv.owned.next]
    rfl
  · rw [if_neg new]
    refine World.life_congr (update_of_ne new _ _) ?_ rfl rfl fun _ _ => Iff.rfl
    exact Nat.lt_succ_iff_lt_or_eq.trans (or_iff_left new)

/-- A cancel that finds no timer calls off the re-insertion of one in the batch. -/
theorem missed_life (inv : Inv w) (indexed : Indexed w) (room : w.blocks < sequenceBound) {seq : Nat}
    (missing : w.active seq = none) (b : Nat) :
    (if w.callingExpired then { w with cancelingSeqs := w.cancelingSeqs ++ [seq] } else w).life b =
      if seq = b + 1 then (w.life b).next .cancel else w.life b := by
  by_cases named : seq = b + 1
  · rw [if_pos named]
    cases live : w.heap b with
    | none =>
      have same : (if w.callingExpired then { w with cancelingSeqs := w.cancelingSeqs ++ [seq] } else w).life b =
          w.life b := by
        split
        · exact World.life_congr rfl Iff.rfl rfl rfl fun c here => absurd (live.symm.trans here) (Option.some_ne_none c).symm
        · rfl
      rw [same, World.life, World.fate_dead live]
      split <;> rfl
    | some c =>
      have number := inv.sequence room live
      have popped : b ∈ w.activation.expired.map TimerPtr.block := by
        by_contra outside
        have index := (inv.pending indexed live outside).2
        rw [number, ← named, missing] at index
        exact Option.some_ne_none _ index.symm
      have noted : c.timer.sequence ∈ w.cancelingSeqs ++ [seq] := by
        rw [number, named]
        exact List.mem_append_right _ (List.mem_singleton.mpr rfl)
      have after : ({ w with cancelingSeqs := w.cancelingSeqs ++ [seq] } : World).fate b =
          .taken c.timer w.activation.now (decide (c.timer.sequence ∈ w.cancelingSeqs ++ [seq])) :=
        World.fate_taken live popped
      rw [decide_eq_true noted] at after
      obtain ⟨p, called, _⟩ := List.mem_map.mp popped
      rw [if_pos (inv.calling_of_popped called), World.life, World.life, World.fate_taken live popped, after]
      rfl
  · rw [if_neg named]
    split
    · refine World.life_congr rfl Iff.rfl rfl rfl fun c live => ?_
      have other : c.timer.sequence ≠ seq := by
        rw [inv.sequence room live]
        exact fun same => named same.symm
      simp [other]
    · rfl

/-- A cancel that finds a timer takes that one out of the queue. -/
theorem unlink_life (inv : Inv w) (room : w.blocks < sequenceBound) {seq : Nat}
    (index : w.active seq = some t) (live : w.Points t c) (b : Nat) :
    (w.unlink seq t c).life b = if seq = b + 1 then (w.life b).next .cancel else w.life b := by
  obtain ⟨d, live', sequence, _⟩ := inv.owned.active seq t index
  obtain rfl := live.unique live'
  have number := inv.sequence room live.1
  have outside : t.block ∉ w.activation.expired.map TimerPtr.block := by
    intro popped
    obtain ⟨p, member, same⟩ := List.mem_map.mp popped
    obtain ⟨⟨e, other⟩, _⟩ := inv.owned.batch p member
    obtain rfl := live.eq_of_block other same
    exact inv.owned.not_detached index member
  by_cases here : b = t.block
  · subst here
    have dead : (w.unlink seq t c).heap t.block = none := update_self _ _ _
    have old : t.block < (w.unlink seq t c).blocks := (inv.owned.live _ c live.1).1
    rw [if_pos (sequence.symm.trans number), World.life, World.life, World.fate_dead dead, if_pos old,
      World.fate_pending live.1 outside]
    rfl
  · rw [if_neg fun named => here (by omega)]
    refine World.life_congr (update_of_ne here _ _) Iff.rfl rfl rfl fun e other => ?_
    have different : e.timer.sequence ≠ seq := by
      rw [inv.sequence room other]
      omega
    simp only [World.unlink]
    split
    · simp [different]
    · rfl

/-- The timers popped are those whose expiration has come. -/
theorem Owned.mem_due (owned : Owned [] w) : b ∈ ((w.due now).map Entry.timer).map TimerPtr.block ↔
    ∃ c, w.heap b = some c ∧ c.timer.expiration ≤ now := by
  constructor
  · intro member
    obtain ⟨t, popped, rfl⟩ := List.mem_map.mp member
    obtain ⟨e, due, rfl⟩ := List.mem_map.mp popped
    obtain ⟨c, live, time⟩ := owned.entry e (World.mem_timers.mpr (Or.inl due))
    exact ⟨c, live.1, time.le.trans (World.due_le due)⟩
  · rintro ⟨c, live, early⟩
    have queued := (owned.owner b c live).resolve_right List.not_mem_nil
    have due := (World.mem_timers.mp queued).resolve_right fun left => absurd early (not_le.mpr (World.later_lt left))
    exact List.mem_map.mpr ⟨_, List.mem_map.mpr ⟨_, due, rfl⟩, rfl⟩

/-- `handleExpired` takes the timers whose expiration has come. -/
theorem popped_life (inv : Inv w) (idle : w.activation = .idle) (now : Int) (active : Nat → Option TimerPtr)
    (b : Nat) : (w.popped now active).life b = (w.life b).next (.expire now) := by
  have owned := inv.owned
  rw [idle] at owned
  have before : w.calls b = w.started.count b := by
    simp [World.calls, idle, Activation.rest]
  have after : (w.popped now active).calls b =
      w.started.count b + (((w.due now).map Entry.timer).map TimerPtr.block).count b := rfl
  have outside : b ∉ w.activation.expired.map TimerPtr.block := by
    simp [idle, Activation.expired]
  rw [World.life, World.life, before, after]
  cases live : w.heap b with
  | none =>
    have absent : b ∉ ((w.due now).map Entry.timer).map TimerPtr.block := by
      rw [owned.mem_due]
      rintro ⟨c, here, _⟩
      exact Option.some_ne_none c (here.symm.trans live)
    have dead : (w.popped now active).heap b = none := live
    rw [World.fate_dead live, World.fate_dead dead, List.count_eq_zero_of_not_mem absent]
    have blocks : (w.popped now active).blocks = w.blocks := rfl
    rw [blocks]
    split <;> rfl
  | some c =>
    have here : (w.popped now active).heap b = some c := live
    rw [World.fate_pending live outside]
    by_cases early : c.timer.expiration ≤ now
    · have member := owned.mem_due.mpr ⟨c, live, early⟩
      have once : (((w.due now).map Entry.timer).map TimerPtr.block).count b = 1 := by
        refine List.count_eq_one_of_mem ?_ member
        rw [List.map_map]
        exact List.pairwise_map.mpr (owned.entry_blocks.sublist (List.takeWhile_sublist _))
      have calm : (w.popped now active).cancelingSeqs = [] := (inv.idle idle).2
      rw [World.fate_taken here member, calm, once]
      simp only [Life.next, if_pos early]
      rfl
    · have absent : b ∉ ((w.due now).map Entry.timer).map TimerPtr.block := by
        rw [owned.mem_due]
        rintro ⟨d, other, due⟩
        cases live.symm.trans other
        exact early due
      rw [World.fate_pending here absent, List.count_eq_zero_of_not_mem absent]
      simp only [Life.next, if_neg early]
      rfl

/-- The end of `handleExpired` restarts or deletes the timers of the batch. -/
theorem finish_life (inv : Inv w) {expired : List TimerPtr} (control : w.activation = .batch now expired [] false)
    (idle : w'.activation = .idle) (blocks : w'.blocks = w.blocks) (started : w'.started = w.started)
    (outside : ∀ b, b ∉ expired.map TimerPtr.block → w'.heap b = w.heap b)
    (inside : ∀ t ∈ expired, ∀ c, w.Points t c → w'.heap t.block =
      if c.timer.repeat_ = true ∧ c.timer.sequence ∉ w.cancelingSeqs then some ⟨t.addr, c.timer.restart now⟩ else none)
    (b : Nat) : w'.life b = (w.life b).next .finish := by
  have before : w.calls b = w.started.count b := by
    simp [World.calls, control, Activation.rest]
  have after : w'.calls b = w.started.count b := by
    simp [World.calls, idle, Activation.rest, started]
  have empty : b ∉ w'.activation.expired.map TimerPtr.block := by
    simp [idle, Activation.expired]
  have batch : w.activation.expired = expired := by
    rw [control]
    rfl
  rw [World.life, World.life, before, after]
  by_cases popped : b ∈ w.activation.expired.map TimerPtr.block
  · obtain ⟨c, live, old⟩ := inv.blocks popped
    obtain ⟨t, called, rfl⟩ := List.mem_map.mp popped
    obtain ⟨⟨d, here⟩, _⟩ := inv.owned.batch t called
    obtain rfl : d = c := Option.some.inj (here.1.symm.trans live)
    have left := inside t (batch ▸ called) d here
    rw [World.fate_taken live popped, control]
    by_cases again : d.timer.repeat_ = true ∧ d.timer.sequence ∉ w.cancelingSeqs
    · rw [if_pos again] at left
      rw [World.fate_pending left empty]
      simp [Life.next, again.1, again.2, Activation.now]
    · rw [if_neg again] at left
      rw [World.fate_dead left, blocks, if_pos old]
      simpa [Life.next] using again
  · have same := outside b (batch ▸ popped)
    cases live : w.heap b with
    | none =>
      rw [World.fate_dead (same.trans live), World.fate_dead live, blocks]
      split <;> rfl
    | some c =>
      rw [World.fate_pending (same.trans live) empty, World.fate_pending live popped]
      rfl

/-- A timer that is called was counted when the batch took it. -/
theorem call_life {expired rest : List TimerPtr} (control : w.activation = .batch now expired (t :: rest) false)
    (b : Nat) :
    ({ w with activation := .batch now expired rest true, started := w.started ++ [t.block] } : World).life b =
      w.life b := by
  have calls : w.started.count b + ((t :: rest).map TimerPtr.block).count b =
      (w.started ++ [t.block]).count b + (rest.map TimerPtr.block).count b := by
    rw [List.map_cons, List.count_cons, List.count_append, List.count_singleton]
    omega
  simp only [World.life, World.fate, World.calls, control, Activation.expired, Activation.now, Activation.rest, calls]
  rfl

theorem destroy_life (inv : Inv w) (idle : w.activation = .idle) (b : Nat) :
    w.destroyed.life b = (w.life b).next .destroy := by
  have dead : w.destroyed.heap b = none := (inv.destroy idle).destroyed rfl b
  have calls : w.destroyed.calls b = w.calls b := by
    simp [World.calls, World.destroyed, idle, Activation.rest]
  have outside : b ∉ w.activation.expired.map TimerPtr.block := by
    simp [idle, Activation.expired]
  have blocks : w.destroyed.blocks = w.blocks := rfl
  rw [World.life, World.life, World.fate_dead dead, calls, blocks]
  cases live : w.heap b with
  | none =>
    rw [World.fate_dead live]
    split <;> rfl
  | some c =>
    have old : b < w.blocks := (inv.owned.live b c live).1
    rw [if_pos old, World.fate_pending live outside]
    rfl

/-- A step of the queue is to each timer what its event says. -/
theorem Move.life {a : Act} (inv : Inv w) (indexed : Indexed w) (room : w.blocks < sequenceBound) (move : Move w a w')
    (b : Nat) : w'.life b = (a.event w.blocks b).toList.foldl Life.next (w.life b) := by
  cases move with
  | fire => rfl
  | @insert _ callback addr delay interval now _ kind =>
    obtain ⟨_, _, _, frame⟩ := w.insertNew_frame _ _ _ _ _ _
    rw [frame]
    refine (link_life inv callback delay interval now addr b).trans ?_
    rcases kind with ⟨rfl, rfl⟩ | ⟨rfl, rfl⟩
    · by_cases new : b = w.blocks <;> simp [Act.event, new]
    · by_cases new : b = w.blocks <;> simp [Act.event, new]
  | ignored _ _ empty => simp [Act.event, empty]
  | @missed id _ _ _ valid missing =>
    rw [missed_life inv indexed room missing]
    by_cases named : id.seq = b + 1 <;> simp [Act.event, valid, named]
  | @removed id _ _ _ _ _ valid index live =>
    obtain ⟨_, _, _, frame⟩ := w.removed_frame _ _ _ _
    rw [frame]
    refine (unlink_life inv room index live b).trans ?_
    by_cases named : id.seq = b + 1 <;> simp [Act.event, valid, named]
  | @expire completed now active idle =>
    have inv' : Inv (w.consume completed) :=
      ⟨inv.fault, inv.owned.congr rfl rfl rfl rfl rfl rfl, inv.calling, inv.quiet, inv.rest, inv.destroyed⟩
    exact popped_life inv' idle now active b
  | call control => exact call_life control b
  | ret control =>
    simp only [World.life, World.fate, World.calls, control, Activation.expired, Activation.now, Activation.rest]
    rfl
  | @finish now _ expired kept control _ loop =>
    obtain ⟨_, _, _, frame⟩ := World.rearm_frame { kept with cancelingSeqs := [], activation := .idle } _
    have owned := inv.owned
    rw [control] at owned
    obtain ⟨outside, inside⟩ := loop.heap (owned.congr rfl rfl rfl rfl rfl rfl)
    obtain ⟨blocks, _, _, _, _, _, started, _⟩ := loop.frame
    rw [frame]
    exact @finish_life w { kept with cancelingSeqs := [], activation := .idle } now inv expired control rfl blocks
      started outside inside b
  | destroy idle => exact destroy_life inv idle b

theorem created_concat (acts more : List Act) : created (acts ++ more) = created acts + created more :=
  List.countP_append

theorem events_concat (b blocks : Nat) (acts : List Act) (a : Act) :
    events b blocks (acts ++ [a]) = events b blocks acts ++ (a.event (blocks + created acts) b).toList := by
  induction acts generalizing blocks with
  | nil => simp [events, created]
  | cons first rest ih =>
    have total : created (first :: rest) = (if first.creates then 1 else 0) + created rest := by
      simp only [created, List.countP_cons]
      omega
    rw [List.cons_append, events, events, ih, total, List.append_assoc, Nat.add_assoc]

/-- What becomes of a timer is what its events make of it. -/
theorem run_life {acts more : List Act} {u : World} (before : Run step start acts w) (later : Run step w more u)
    (room : created acts + created more < sequenceBound) (b : Nat) :
    u.life b = (events b w.blocks more).foldl Life.next (w.life b) := by
  induction later with
  | start => rfl
  | @next more v u a later _ move ih =>
    rw [created_append] at room
    have reach : Run step start (acts ++ more) v := before.trans later
    have made : created (acts ++ more) < sequenceBound := by
      rw [created_concat]
      omega
    have blocks : v.blocks = w.blocks + created more := by
      rw [run_blocks reach, run_blocks before, created_concat]
    have inv := run_inv reach
    have step := (step_move inv move).life inv (run_indexed reach made) (by rw [run_blocks reach]; exact made) b
    rw [step, ih (by omega), events_concat, List.foldl_append, blocks]

/-- A canceled timer is not found under its sequence number. -/
theorem Canceled.missing (gone : Canceled t w) (inv : Inv w) (room : w.blocks < sequenceBound) :
    w.active (t.block + 1) = none := by
  refine Option.eq_none_iff_forall_ne_some.mpr fun p index => ?_
  obtain ⟨c, live, _, queued⟩ := inv.owned.active _ p index
  exact gone.timers _ queued (inv.found_block room rfl index).symm

/-- Of the timers, only the one named is not as it was. -/
structure Spared (t : TimerPtr) (seq : Nat) (w w' : World) : Prop where
  timers : ∀ e, e.timer.block ≠ t.block → (e ∈ w'.timers ↔ e ∈ w.timers)
  active : ∀ s, s ≠ seq → w'.active s = w.active s
  heap : ∀ b, b ≠ t.block → w'.heap b = w.heap b

theorem cancel_spared {seq : Nat} (inv : Inv w) (room : w.blocks < sequenceBound) (named : seq = t.block + 1)
    (cancel : step w (.cancel ⟨some t, seq⟩ now) = some w') : Spared t seq w w' := by
  have same : Spared t seq w w := ⟨fun _ _ => Iff.rfl, fun _ _ => rfl, fun _ _ => rfl⟩
  rcases cancel_cases inv cancel with ⟨_, rfl⟩ | ⟨_, _, rfl⟩ | ⟨_, p, c, index, live, rfl⟩
  · exact same
  · split
    · exact ⟨same.timers, same.active, same.heap⟩
    · exact same
  · have block := (inv.found_block room named index).symm
    obtain ⟨_, _, _, frame⟩ := w.removed_frame seq p c now
    rw [frame]
    refine ⟨fun e other => ?_, fun s other => update_of_ne other _ _, fun b other => update_of_ne (block ▸ other) _ _⟩
    refine (inv.owned.unlink_mem (s := seq) live).trans (and_iff_left fun timer => other ?_)
    rw [timer, block]

/-- Where every timer has its own sequence number, a cancel of an id that the
queue has handed out leaves the other timers as they are, and the same becomes
of each of them as without it in any later steps that are the same events to
it; the timer named is in neither index, and a second cancel, then or later,
changes neither. A cancel of an empty id does nothing. -/
theorem cancel_exact {acts : List Act} {seq : Nat} (before : Run step start acts w)
    (room : created acts < sequenceBound) :
    (∀ seq now w', step w (.cancel ⟨none, seq⟩ now) = some w' → w' = w) ∧
    (⟨some t, seq⟩ ∈ w.issued → ∀ now w', step w (.cancel ⟨some t, seq⟩ now) = some w' →
      Spared t seq w w' ∧
      (∀ more more' u u', Run step w more u → Run step w' more' u' →
        created acts + created more < sequenceBound → created acts + created more' < sequenceBound →
        ∀ b, b ≠ t.block → events b w.blocks more' = events b w.blocks more → u'.life b = u.life b) ∧
      ((∀ e ∈ w'.timers, e.timer.block ≠ t.block) ∧ w'.active seq = none) ∧
      ∀ more u now' u', Run step w' more u → created acts + created more < sequenceBound →
        step u (.cancel ⟨some t, seq⟩ now') = some u' → u'.timers = u.timers ∧ u'.active = u.active) := by
  have inv := run_inv before
  have bound : w.blocks < sequenceBound := (run_blocks before).symm ▸ room
  refine ⟨fun seq now w' cancel => ?_, fun member now w' cancel => ?_⟩
  · rcases cancel_cases inv cancel with ⟨_, same⟩ | ⟨valid, _⟩ | ⟨valid, _⟩
    · exact same
    · exact absurd rfl valid
    · exact absurd rfl valid
  have named := issued_sequence (run_issued before) bound member
  have gone := cancel_canceled inv (run_indexed before room) bound (run_issued before) member cancel
  have reach : Run step start (acts ++ [.cancel ⟨some t, seq⟩ now]) w' := before.next cancel
  have made : created (acts ++ [.cancel ⟨some t, seq⟩ now]) = created acts := created_append _ _
  have blocks : w'.blocks = w.blocks := by rw [run_blocks reach, run_blocks before, made]
  have life : ∀ b, b ≠ t.block → w'.life b = w.life b := by
    intro b other
    rw [(step_move inv cancel).life inv (run_indexed before room) bound b]
    have apart : ¬ seq = b + 1 := by omega
    simp [Act.event, apart]
  refine ⟨cancel_spared inv bound named cancel, ?_, ⟨gone.timers, ?_⟩, ?_⟩
  · intro more more' u u' later later' fits fits' b other same
    rw [run_life before later fits, run_life reach later' (by rw [made]; exact fits'), blocks, same, life b other]
  · rw [named]
    exact gone.missing (run_inv reach) (by omega)
  · intro more u now' u' later fits again
    obtain ⟨inv', gone', -, -⟩ := run_canceled (run_inv reach) gone later
    have count := run_blocks (reach.trans later)
    rw [created_concat, made] at count
    have missing := gone'.missing inv' (by omega)
    rw [← named] at missing
    rcases cancel_cases inv' again with ⟨_, rfl⟩ | ⟨_, _, rfl⟩ | ⟨_, _, _, index, _⟩
    · exact ⟨rfl, rfl⟩
    · split <;> exact ⟨rfl, rfl⟩
    · exact absurd (missing.symm.trans index) (Option.some_ne_none _).symm

/-- A periodic timer and one that is due later. -/
def pair : List Act := [.addPeriodic 1 5 0 0 16, .add 2 9 0 0 32]

theorem pair_cancel_exact : ∃ w w' u u', Run step start pair w ∧ step w (.cancel ⟨some ⟨16, 0⟩, 1⟩ 3) = some w' ∧
    Run step w [.expire false 6, .call, .ret false, .finish 7, .expire false 10] u ∧
    Run step w' [.expire false 6, .finish 7, .expire false 10] u' ∧ u'.life 1 = u.life 1 := by
  have reach : Run step start pair (after step start pair) := run_after (by decide)
  have cancel : step (after step start pair) (.cancel ⟨some ⟨16, 0⟩, 1⟩ 3) =
      some (after step start (pair ++ [.cancel ⟨some ⟨16, 0⟩, 1⟩ 3])) := rfl
  have later : Run step (after step start pair) [.expire false 6, .call, .ret false, .finish 7, .expire false 10]
      (after step (after step start pair) [.expire false 6, .call, .ret false, .finish 7, .expire false 10]) :=
    run_after (by decide)
  have later' : Run step (after step start (pair ++ [.cancel ⟨some ⟨16, 0⟩, 1⟩ 3]))
      [.expire false 6, .finish 7, .expire false 10]
      (after step (after step start (pair ++ [.cancel ⟨some ⟨16, 0⟩, 1⟩ 3]))
        [.expire false 6, .finish 7, .expire false 10]) :=
    run_after (by decide)
  refine ⟨_, _, _, _, reach, cancel, later, later', ?_⟩
  exact ((cancel_exact reach (by decide)).2 (by decide) 3 _ cancel).2.1 _ _ _ _ later later' (by decide) (by decide) 1
    (by decide) rfl

/-- With a sequence number handed out twice, the cancel of the older timer
leaves it in the queue and removes the newer one. -/
theorem reused_sequence_removes : ∃ w w', Run step start lapped w ∧
    ⟨some ⟨1, 0⟩, 1⟩ ∈ w.issued ∧ step w (.cancel ⟨some ⟨1, 0⟩, 1⟩ 0) = some w' ∧
    (⟨0, ⟨1, 0⟩⟩ ∈ w.timers ∧ ⟨0, ⟨1, 0⟩⟩ ∈ w'.timers) ∧
    ⟨0, ⟨2, 2 ^ 64⟩⟩ ∈ w.timers ∧ ⟨0, ⟨2, 2 ^ 64⟩⟩ ∉ w'.timers := by
  obtain ⟨w, w', reach, issued, older, newer, cancel, lone⟩ := lapped_cancel
  have inv := (step_move (run_inv reach) cancel).inv (run_inv reach)
  refine ⟨w, w', reach, issued, cancel, ⟨older, KeyedSet.first?_mem (lone.top inv)⟩, newer, fun member => ?_⟩
  obtain ⟨c, live, -⟩ := inv.owned.entry _ member
  exact absurd (lone.alone _ c live.1) (by decide)

end CoroNet.Timers
