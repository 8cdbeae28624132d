import CoroNet.Example.ZeroCopy
import Mathlib.Data.List.Pairwise

namespace CoroNet.EchoServer.ZeroCopy

open Coroutine (Kind)
open EventLoop Function Transition
open SlotOwners (Accounted Apart Built indices)

variable {pool : RegisteredBufferPool} {w w' : World} {t a n : Nat} {c : Conn} {op : Op} {r : Answer} {free : List Int}
  {handlers : Nat → Handler Unit Value Op Running} {loop : EventLoop.World Unit Value Op Running}

/-- What holds of the slots while the kernel reads and writes in them. Where a
handler does not wait for a reception its slot holds what was received last;
where the reception is complete, what its answer says. -/
structure Sheltered (pool : RegisteredBufferPool) (w : World) : Prop where
  loop : Sound code w.loop
  served : ∀ task ∈ w.loop.started, ∃ c, task = (c, State.handler)
  kernel : ∀ entry ∈ w.loop.log, Allowed entry.2
  slots : ∃ free, Accounted pool w.owners free
  answers : ∀ t a awaiter, w.loop.Awaits t a awaiter → a ∉ w.loop.inflight → awaiter.op.Answers awaiter.result
  content : ∀ t c, w.loop.started[t]? = some (c, .handler) → c.hasFixedSlot = true → (w.loop.shims t).isSome →
    (∀ op, (w.loop.events t).getLast? = some (.asks op) → op.fillsSlot = false) →
    w.memory.read c.slot (slotData (w.loop.exchanges t)).length = slotData (w.loop.exchanges t)
  stored : ∀ t a awaiter, w.loop.Awaits t a awaiter → a ∉ w.loop.inflight → awaiter.op.fillsSlot = true →
    w.memory.read awaiter.op.address awaiter.result.data.length = awaiter.result.data

/-- What the kernel has taken is what the sends were asked to send. -/
structure Wired (w : World) : Prop where
  taken : ∀ t a awaiter, w.loop.Awaits t a awaiter → awaiter.op.drainsSlot = true →
    w.taken a <+: awaiter.op.bytes ∧ (a ∉ w.loop.inflight → (w.taken a).length = awaiter.result.res.toNat)
  fresh : ∀ a, w.loop.suspensions ≤ a → w.taken a = []
  known : ∀ x ∈ w.wire, x.1 < w.loop.started.length
  pending : ∀ t c a awaiter, w.loop.started[t]? = some (c, .handler) → w.loop.Awaits t a awaiter →
    awaiter.op.drainsSlot = true → w.sent t = confirmed (w.loop.exchanges t) ++ w.taken a
  rest : ∀ t c, w.loop.started[t]? = some (c, .handler) → c.hasFixedSlot = true →
    (∀ op, (w.loop.events t).getLast? = some (.asks op) → op.drainsSlot = false) →
    w.sent t = confirmed (w.loop.exchanges t)

namespace Sheltered

theorem allowed (sheltered : Sheltered pool w) (t : Nat) : ∀ e ∈ w.loop.events t, Allowed e :=
  fun e member => sheltered.kernel (t, e) (mem_events.mp member)

theorem stage (sheltered : Sheltered pool w) (follows : Follows code w.loop handlers)
    (at_t : w.loop.started[t]? = some (c, .handler)) : Stage c (w.loop.exchanges t) (handlers t) :=
  Stage.of_trace (follows.traces t _ at_t) (sheltered.allowed t)

theorem alive (sheltered : Sheltered pool w) : w.loop.aborted = false := by
  obtain ⟨_, handlers, follows⟩ := sheltered.loop
  refine Bool.eq_false_iff.mpr fun aborted => ?_
  obtain ⟨t, below, e, ended⟩ := follows.threw aborted
  obtain ⟨c, same⟩ := sheltered.served _ (List.getElem_mem below)
  exact (sheltered.stage follows (List.getElem?_eq_some_iff.mpr ⟨below, same⟩)).no_error ended

/-- What a handler that waits has to do with its slot. -/
theorem awaits (sheltered : Sheltered pool w) {awaiter : Awaiter Op} (awaits : w.loop.Awaits t a awaiter) :
    ∃ c, w.loop.started[t]? = some (c, .handler) ∧ (w.loop.shims t).isSome ∧
      (w.loop.events t).getLast? = some (.asks awaiter.op) ∧ (∀ a' awaiter', w.loop.Awaits t a' awaiter' → a' = a) ∧
      OfSlot c (w.loop.exchanges t) awaiter.op ∧ (slotData (w.loop.exchanges t)).length ≤ c.slotSize := by
  obtain ⟨_, handlers, follows⟩ := sheltered.loop
  obtain ⟨below, shim, last, only⟩ := follows.awaits sheltered.alive awaits
  obtain ⟨c, same⟩ := sheltered.served _ (List.getElem_mem below)
  have at_t : w.loop.started[t]? = some (c, .handler) := List.getElem?_eq_some_iff.mpr ⟨below, same⟩
  have asks := (follows.asked below _).mp last
  exact ⟨c, at_t, shim, last, only, (sheltered.stage follows at_t).of_slot asks,
    slotData_fits (follows.traces t _ at_t) (sheltered.allowed t)⟩

end Sheltered

theorem World.conn_eq (at_t : w.loop.started[t]? = some (c, .handler)) : w.conn t = c := by
  rw [World.conn, at_t]

theorem mem_unfinished : t ∈ w.loop.unfinished ↔ t < w.loop.started.length ∧ (w.loop.shims t).isSome := by
  rw [EventLoop.World.unfinished, List.mem_filter, List.mem_range]

/-- The slots of two handlers are apart. -/
theorem Sheltered.apart (sheltered : Sheltered pool w) (built : Built pool) {t' : Nat} {c' : Conn} (other : t' ≠ t)
    (at_t : w.loop.started[t]? = some (c, .handler)) (at_t' : w.loop.started[t']? = some (c', .handler))
    (shim : (w.loop.shims t).isSome) (shim' : (w.loop.shims t').isSome) (slot : c.hasFixedSlot = true)
    (slot' : c'.hasFixedSlot = true) : Apart c'.part c.part := by
  obtain ⟨free, accounted⟩ := sheltered.slots
  have pairwise := accounted.apart built
  rw [World.owners, List.filter_map, List.pairwise_map] at pairwise
  have inside : ∀ {t c}, w.loop.started[t]? = some (c, .handler) → (w.loop.shims t).isSome → c.hasFixedSlot = true →
      t ∈ w.loop.unfinished.filter (TcpConnection.hasFixedSlot ∘ fun t => (w.conn t).part) := by
    intro t c at_t shim slot
    refine List.mem_filter.mpr ⟨mem_unfinished.mpr ⟨(List.getElem?_eq_some_iff.mp at_t).1, shim⟩, ?_⟩
    rw [Function.comp_apply, World.conn_eq at_t]
    exact slot
  have : Std.Symm fun t t' => Apart (w.conn t).part (w.conn t').part := ⟨fun _ _ => Or.symm⟩
  have far := pairwise.forall (inside at_t' shim' slot') (inside at_t shim slot) other
  rwa [World.conn_eq at_t, World.conn_eq at_t'] at far

theorem release_all (conns : List Conn) (free : List Int) :
    conns.foldl World.release (some { pool with freeList := free }) =
      some { pool with freeList := free ++ (conns.filter Conn.hasFixedSlot).map Conn.bufIndex } := by
  induction conns generalizing free with
  | nil => simp
  | cons c conns ih =>
    rw [List.foldl_cons, World.release]
    by_cases slot : c.hasFixedSlot = true
    · have nonneg : ¬ c.bufIndex < 0 := by simpa [Conn.hasFixedSlot] using slot
      rw [if_pos slot, Option.map_some, RegisteredBufferPool.release, if_neg nonneg, ih,
        List.filter_cons_of_pos slot, List.map_cons, List.append_assoc]
      rfl
    · rw [if_neg slot, ih, List.filter_cons_of_neg slot]

/-- The slots of connections that are gone are free again. -/
theorem Sheltered.release (sheltered : Sheltered pool w) (started : loop.started = w.loop.started)
    (shims : ∀ t < w.loop.started.length, (loop.shims t).isSome → (w.loop.shims t).isSome) :
    ∃ free, Accounted pool (w.goOn loop).owners free := by
  obtain ⟨free, accounted⟩ := sheltered.slots
  have kept : w.bufPool = some { pool with freeList := free } := accounted.kept
  have conns : (w.goOn loop).conn = w.conn := by
    funext t
    rw [World.conn, World.conn, World.goOn, started]
  have live : loop.unfinished = w.loop.unfinished.filter fun t => (loop.shims t).isSome := by
    rw [EventLoop.World.unfinished, EventLoop.World.unfinished, List.filter_filter, started]
    refine List.filter_congr fun t member => ?_
    cases here : (loop.shims t).isSome with
    | true => rw [Bool.true_and, shims t (List.mem_range.mp member) here]
    | false => rfl
  let indicesOf (ids : List Nat) : List Int := ((ids.map w.conn).filter Conn.hasFixedSlot).map Conn.bufIndex
  have held : ∀ ids : List Nat, ((ids.map fun t => (w.conn t).part).filter TcpConnection.hasFixedSlot).map
      TcpConnection.bufIndex = indicesOf ids := by
    intro ids
    simp only [indicesOf, List.filter_map, List.map_map]
    rfl
  have split : (indicesOf (w.loop.unfinished.filter fun t => (loop.shims t).isNone) ++ indicesOf loop.unfinished).Perm
      (indicesOf w.loop.unfinished) := by
    have parts := List.filter_append_perm (fun t => (loop.shims t).isNone) w.loop.unfinished
    have both := ((parts.map w.conn).filter Conn.hasFixedSlot).map Conn.bufIndex
    simpa only [indicesOf, live, List.map_append, List.filter_append, Option.not_isNone] using both
  have owners : (w.goOn loop).owners =
      ⟨(w.goOn loop).bufPool, loop.unfinished.map fun t => (w.conn t).part⟩ := by
    rw [World.owners, conns]
    rfl
  refine ⟨free ++ indicesOf (w.loop.unfinished.filter fun t => (loop.shims t).isNone), ?_, ?_, fun c member => ?_⟩
  · show (w.goOn loop).bufPool = _
    rw [World.goOn, kept]
    exact release_all ..
  · refine List.Perm.trans ?_ accounted.slots
    rw [owners, SlotOwners.World.held, SlotOwners.World.held, held, List.append_assoc]
    refine List.Perm.append_left _ ?_
    rw [World.owners, held]
    exact split
  · rw [owners] at member
    obtain ⟨t, inside, rfl⟩ := List.mem_map.mp member
    rw [live] at inside
    exact accounted.placed _ (List.mem_map_of_mem (List.mem_of_mem_filter inside))

theorem construct_owners (w : World) (fd : Int) :
    w.owners.construct = ⟨(w.construct fd).2, w.owners.conns ++ [(w.construct fd).1.part]⟩ := by
  have same : w.owners.bufPool = w.bufPool := rfl
  rw [SlotOwners.World.construct, World.construct, same]
  cases w.bufPool with
  | none => rfl
  | some pool =>
    by_cases free : 0 ≤ pool.acquire.1
    · simp only [if_pos free]
      rfl
    · simp only [if_neg free]
      rfl

theorem exchanges_of_log {e : Event Op Running} (log : loop.log = w.loop.log ++ [(t, e)]) (t' : Nat) :
    loop.exchanges t' = w.loop.exchanges t' ++ if t' = t then EventLoop.exchanges [e] else [] := by
  rw [EventLoop.World.exchanges, EventLoop.World.events_of_log log, EventLoop.World.exchanges, EventLoop.exchanges,
    List.filterMap_append]
  split <;> rfl

theorem exchanges_quiet {e : Event Op Running} (log : loop.log = w.loop.log ++ [(t, e)])
    (other : ∀ op r, e ≠ .answered op r) (t' : Nat) : loop.exchanges t' = w.loop.exchanges t' := by
  have nothing : EventLoop.exchanges [e] = [] := by
    cases e with
    | answered op r => exact absurd rfl (other op r)
    | _ => rfl
  rw [exchanges_of_log log, nothing, ite_self, List.append_nil]

theorem events_other {e : Event Op Running} (log : loop.log = w.loop.log ++ [(t, e)]) {t' : Nat} (other : t' ≠ t) :
    loop.events t' = w.loop.events t' := by
  rw [EventLoop.World.events_of_log log, if_neg other, List.append_nil]

theorem events_same (log : loop.log = w.loop.log) (t : Nat) : loop.events t = w.loop.events t := by
  rw [EventLoop.World.events, log, EventLoop.World.events]

theorem exchanges_same (log : loop.log = w.loop.log) (t : Nat) : loop.exchanges t = w.loop.exchanges t := by
  rw [EventLoop.World.exchanges, events_same log, EventLoop.World.exchanges]

section Quiet

variable {P : Op → Prop} {e : Event Op Running} {t' : Nat}
  (quiet : ∀ op, (loop.events t').getLast? = some (.asks op) → P op)

include quiet

/-- What a handler waits for after a step that is not its own, it waited for before. -/
theorem quiet_other (log : loop.log = w.loop.log ++ [(t, e)]) (other : t' ≠ t) (op : Op)
    (last : (w.loop.events t').getLast? = some (.asks op)) : P op :=
  quiet op ((congrArg List.getLast? (events_other log other)).trans last)

theorem quiet_same (log : loop.log = w.loop.log) (op : Op) (last : (w.loop.events t').getLast? = some (.asks op)) :
    P op :=
  quiet op ((congrArg List.getLast? (events_same log t')).trans last)

theorem quiet_before (log : loop.log = w.loop.log ++ [(t, e)])
    (free : ∀ op, (w.loop.events t).getLast? ≠ some (.asks op)) (op : Op)
    (last : (w.loop.events t').getLast? = some (.asks op)) : P op := by
  by_cases same : t' = t
  · exact absurd (same ▸ last) (free op)
  · exact quiet_other quiet log same op last

end Quiet

theorem spawns_none {e : Event Op Running} (sound : Sound code loop) (log : loop.log = w.loop.log ++ [(t, e)]) :
    spawns [e] = [] := by
  obtain ⟨_, handlers, follows⟩ := sound
  refine List.eq_nil_iff_forall_not_mem.mpr fun task member => ?_
  refine follows.spawns_of_code (P := fun _ => False) spawns_nothing task ?_
  rw [log, List.map_append, spawns, List.filterMap_append]
  exact List.mem_append_right _ member

namespace Sheltered

/-- A step of a handler that does not wait leaves the slots. -/
theorem content_keep {e : Event Op Running} (sheltered : Sheltered pool w)
    (free : ∀ op, (w.loop.events t).getLast? ≠ some (.asks op)) (log : loop.log = w.loop.log ++ [(t, e)])
    (other : ∀ op r, e ≠ .answered op r) {t' : Nat} (at_t : w.loop.started[t']? = some (c, .handler))
    (slot : c.hasFixedSlot = true) (shim : (w.loop.shims t').isSome)
    (quiet : ∀ op, (loop.events t').getLast? = some (.asks op) → op.fillsSlot = false) :
    w.memory.read c.slot (slotData (loop.exchanges t')).length = slotData (loop.exchanges t') := by
  rw [exchanges_quiet log other]
  exact sheltered.content t' c at_t slot shim (quiet_before quiet log free)

theorem kernel_keep {e : Event Op Running} (sheltered : Sheltered pool w) (log : loop.log = w.loop.log ++ [(t, e)])
    (allowed : Allowed e) : ∀ entry ∈ loop.log, Allowed entry.2 := by
  intro entry member
  rw [log] at member
  rcases List.mem_append.mp member with before | new
  · exact sheltered.kernel entry before
  · cases List.mem_singleton.mp new
    exact allowed

/-- The loop has gone on. -/
theorem goOn {m : Move Running} (sheltered : Sheltered pool w) (move : EventLoop.step code w.loop m = some loop)
    (none_posted : m.posted = none)
    (kernel : ∀ a r, m = .complete a r → ∀ t awaiter, w.loop.Awaits t a awaiter →
      awaiter.op.Answers r ∧ (awaiter.op.fillsSlot = true →
        w.memory.read awaiter.op.address r.data.length = r.data)) : Sheltered pool (w.goOn loop) := by
  obtain ⟨fault, handlers, follows⟩ := sheltered.loop
  have sound := (sheltered.loop.step move).1
  cases follows.effect fault move with
  | @goes t e shim free log asks other started inflight _ shims awaits =>
    rw [spawns_none sound log, List.append_nil] at started
    refine ⟨sound, started ▸ sheltered.served, sheltered.kernel_keep log ?_, sheltered.release started shims,
      fun t a awaiter waits landed => sheltered.answers t a awaiter (awaits _ _ _ waits) (inflight ▸ landed),
      fun t' c at_t slot shim quiet => ?_,
      fun t a awaiter waits landed => sheltered.stored t a awaiter (awaits _ _ _ waits) (inflight ▸ landed)⟩
    · cases e with
      | answered op r => exact absurd rfl (other op r)
      | _ => trivial
    · exact sheltered.content_keep free log other (started ▸ at_t) slot
        (shims t' (started ▸ (List.getElem?_eq_some_iff.mp at_t).1) shim) quiet
  | @asks t op shim free log started inflight _ shims awaits =>
    have old : ∀ t' a awaiter, loop.Awaits t' a awaiter → a ∉ loop.inflight →
        w.loop.Awaits t' a awaiter ∧ a ∉ w.loop.inflight := by
      intro t' a awaiter waits landed
      rw [inflight] at landed
      rcases awaits t' a awaiter waits with ⟨_, before⟩ | ⟨rfl, _⟩
      · exact ⟨before, fun member => landed (List.mem_append_left _ member)⟩
      · exact absurd (List.mem_append_right _ (List.mem_singleton_self _)) landed
    refine ⟨sound, started ▸ sheltered.served, sheltered.kernel_keep log trivial,
      sheltered.release started fun _ _ held => shims ▸ held,
      fun t a awaiter waits landed =>
        sheltered.answers t a awaiter (old _ _ _ waits landed).1 (old _ _ _ waits landed).2,
      fun t' c at_t slot shim quiet => ?_,
      fun t a awaiter waits landed =>
        sheltered.stored t a awaiter (old _ _ _ waits landed).1 (old _ _ _ waits landed).2⟩
    exact sheltered.content_keep free log nofun (started ▸ at_t) slot (shims ▸ shim) quiet
  | @turn t a awaiter waits landed log started inflight _ shims awaits =>
    refine ⟨sound, started ▸ sheltered.served, sheltered.kernel_keep log (sheltered.answers t a awaiter waits landed),
      sheltered.release started fun _ _ held => shims ▸ held,
      fun t a awaiter waits landed => sheltered.answers t a awaiter (awaits _ _ _ waits).2 (inflight ▸ landed),
      fun t' c at_t slot shim quiet => ?_,
      fun t a awaiter waits landed => sheltered.stored t a awaiter (awaits _ _ _ waits).2 (inflight ▸ landed)⟩
    have at_t : w.loop.started[t']? = some (c, .handler) := started ▸ at_t
    have shim : (w.loop.shims t').isSome := shims ▸ shim
    show w.memory.read c.slot (slotData (loop.exchanges t')).length = slotData (loop.exchanges t')
    rw [exchanges_of_log log]
    by_cases same : t' = t
    · -- the answer to a reception says what is in the slot
      subst same
      obtain ⟨c', at_t', _, last, _, of_slot, _⟩ := sheltered.awaits waits
      cases at_t.symm.trans at_t'
      rw [if_pos rfl]
      cases fills : awaiter.op.fillsSlot with
      | true =>
        have held := sheltered.stored t' a awaiter waits landed fills
        rw [(of_slot.filled fills).2] at held
        exact (slotData_fill _ fills awaiter.result).symm ▸ held
      | false =>
        have held := sheltered.content t' c at_t slot shim fun op asked => by
          cases last.symm.trans asked
          exact fills
        exact (slotData_keep _ fills awaiter.result).symm ▸ held
    · rw [if_neg same, List.append_nil]
      exact sheltered.content t' c at_t slot shim (quiet_other quiet log same)
  | @complete t a awaiter r waits inside log started inflight _ shims awaits =>
    have landed_before : ∀ {a'}, a' ≠ a → a' ∉ loop.inflight → a' ∉ w.loop.inflight := by
      intro a' other landed member
      rw [inflight] at landed
      exact landed ((List.mem_erase_of_ne other).mpr member)
    obtain ⟨answers, filled⟩ := kernel a r rfl t awaiter waits
    refine ⟨sound, started ▸ sheltered.served, log ▸ sheltered.kernel,
      sheltered.release started fun _ _ held => shims ▸ held, fun t' a' awaiter' waits' landed => ?_,
      fun t' c at_t slot shim quiet => ?_, fun t' a' awaiter' waits' landed fills => ?_⟩
    · rcases awaits t' a' awaiter' waits' with ⟨other, before⟩ | ⟨rfl, rfl, rfl⟩
      · exact sheltered.answers t' a' awaiter' before (landed_before other landed)
      · exact answers
    · show w.memory.read c.slot (slotData (loop.exchanges t')).length = slotData (loop.exchanges t')
      rw [exchanges_same log]
      exact sheltered.content t' c (started ▸ at_t) slot (shims ▸ shim) (quiet_same quiet log)
    · rcases awaits t' a' awaiter' waits' with ⟨other, before⟩ | ⟨rfl, rfl, rfl⟩
      · exact sheltered.stored t' a' awaiter' before (landed_before other landed) fills
      · exact filled fills
  | spawn => cases none_posted

/-- A connection is accepted, and has a slot if there is a free one. -/
theorem connect {fd : Int} (sheltered : Sheltered pool w) (enabled : pool.enabled = true)
    (move : EventLoop.step code w.loop (.spawn ((w.construct fd).1, .handler)) = some loop) :
    Sheltered pool { w with loop := loop, bufPool := (w.construct fd).2 } := by
  obtain ⟨fault, handlers, follows⟩ := sheltered.loop
  have sound := (sheltered.loop.step move).1
  cases follows.effect fault move with
  | spawn log started inflight _ shims awaits =>
    have shims_old : ∀ {t'}, t' < w.loop.started.length → loop.shims t' = w.loop.shims t' := fun below => by
      rw [shims, update_of_ne (Nat.ne_of_lt below)]
    have conns : ∀ t' ∈ w.loop.unfinished,
        World.conn { w with loop := loop, bufPool := (w.construct fd).2 } t' = w.conn t' := by
      intro t' member
      rw [World.conn, World.conn]
      simp only [started]
      rw [List.getElem?_append_left (mem_unfinished.mp member).1]
    have live : loop.unfinished = w.loop.unfinished ++ [w.loop.started.length] := by
      rw [EventLoop.World.unfinished, started, List.length_append, List.length_singleton, List.range_succ,
        List.filter_append, EventLoop.World.unfinished]
      congr 1
      · exact List.filter_congr fun t' member => by rw [shims_old (List.mem_range.mp member)]
      · simp [shims]
    have new : World.conn { w with loop := loop, bufPool := (w.construct fd).2 } w.loop.started.length =
        (w.construct fd).1 := by
      rw [World.conn]
      simp only [started]
      rw [List.getElem?_concat_length]
    have owners : World.owners { w with loop := loop, bufPool := (w.construct fd).2 } = w.owners.construct := by
      rw [construct_owners w fd, World.owners, World.owners]
      simp only [live, List.map_append, List.map_cons, List.map_nil, new]
      rw [List.map_congr_left fun t' member => congrArg Conn.part (conns t' member)]
    obtain ⟨free, accounted⟩ := sheltered.slots
    refine ⟨sound, fun task member => ?_, log ▸ sheltered.kernel, owners ▸ accounted.construct enabled,
      fun t a awaiter waits landed => sheltered.answers t a awaiter (awaits _ _ _ waits) (inflight ▸ landed),
      fun t' c at_t slot shim quiet => ?_,
      fun t a awaiter waits landed => sheltered.stored t a awaiter (awaits _ _ _ waits) (inflight ▸ landed)⟩
    · have member : task ∈ w.loop.started ++ [((w.construct fd).1, State.handler)] := started ▸ member
      rcases List.mem_append.mp member with before | last
      · exact sheltered.served task before
      · exact ⟨_, List.mem_singleton.mp last⟩
    · have at_t : (w.loop.started ++ [((w.construct fd).1, State.handler)])[t']? = some (c, .handler) := started ▸ at_t
      show w.memory.read c.slot (slotData (loop.exchanges t')).length = slotData (loop.exchanges t')
      rw [exchanges_same log]
      by_cases below : t' < w.loop.started.length
      · rw [List.getElem?_append_left below] at at_t
        exact sheltered.content t' c at_t slot (shims_old below ▸ shim) (quiet_same quiet log)
      · rw [EventLoop.World.exchanges, follows.unstarted (Nat.not_lt.mp below)]
        rfl

/-- The kernel writes into the slot of one connection. -/
theorem deposit {offset : Nat} {bytes : List UInt8} {awaiter : Awaiter Op} (sheltered : Sheltered pool w)
    (built : Built pool) (waits : w.loop.Awaits t a awaiter) (inside : a ∈ w.loop.inflight)
    (done : w.deposit awaiter.op offset bytes = some w') : Sheltered pool w' := by
  unfold World.deposit at done
  split at done
  next fd len idx receives =>
    obtain ⟨room, done⟩ := Option.ite_none_right_eq_some.mp done
    cases Option.some.inj done
    obtain ⟨c, at_t, shim, last, only, of_slot, _⟩ := sheltered.awaits waits
    obtain ⟨slot, address, size⟩ := of_slot.fills fd len idx receives
    have fills : awaiter.op.fillsSlot = true := by rw [Op.fillsSlot, receives]
    -- what other connections have is elsewhere
    have elsewhere : ∀ {t' c' n}, t' ≠ t → w.loop.started[t']? = some (c', .handler) → (w.loop.shims t').isSome →
        c'.hasFixedSlot = true → n ≤ c'.slotSize →
        (w.memory.write (awaiter.op.address + offset) bytes).read c'.slot n = w.memory.read c'.slot n := by
      intro t' c' n other at_t' shim' slot' within
      have far : c'.slot + c'.slotSize ≤ c.slot ∨ c.slot + c.slotSize ≤ c'.slot :=
        sheltered.apart built other at_t at_t' shim shim' slot slot'
      exact ByteMemory.read_write_apart (by omega)
    refine ⟨sheltered.loop, sheltered.served, sheltered.kernel, sheltered.slots, sheltered.answers,
      fun t' c' at_t' slot' shim' quiet => ?_, fun t' a' awaiter' waits' landed fills' => ?_⟩
    · by_cases same : t' = t
      · subst same
        exact absurd ((quiet _ last).symm.trans fills) Bool.false_ne_true
      · obtain ⟨_, handlers, follows⟩ := sheltered.loop
        have fits := slotData_fits (follows.traces t' _ at_t') (sheltered.allowed t')
        exact (elsewhere same at_t' shim' slot' fits).trans (sheltered.content t' c' at_t' slot' shim' quiet)
    · by_cases same : t' = t
      · subst same
        exact absurd (only a' awaiter' waits' ▸ inside) landed
      · obtain ⟨c', at_t', shim', _, _, of_slot', _⟩ := sheltered.awaits waits'
        obtain ⟨slot', address'⟩ := of_slot'.filled fills'
        have fits := of_slot'.within fills' (sheltered.answers t' a' awaiter' waits' landed)
        have held := sheltered.stored t' a' awaiter' waits' landed fills'
        rw [address'] at held ⊢
        exact (elsewhere same at_t' shim' slot' fits).trans held
  next => cases done

/-- While a handler waits for a send out of its slot, the bytes it is to send
stay there. -/
theorem names {awaiter : Awaiter Op} (sheltered : Sheltered pool w) (waits : w.loop.Awaits t a awaiter)
    (drains : awaiter.op.drainsSlot = true) {k : Nat} (within : k + n ≤ awaiter.op.bytes.length) :
    w.memory.read (awaiter.op.address + k) n = (awaiter.op.bytes.drop k).take n := by
  obtain ⟨c, at_t, shim, last, _, of_slot, _⟩ := sheltered.awaits waits
  unfold Op.drainsSlot at drains
  split at drains
  next fd len idx sends =>
    obtain ⟨slot, length, offset, address, inside, bytes⟩ := of_slot.drains fd len idx sends
    have content := sheltered.content t c at_t slot shim fun op asked => by
      cases last.symm.trans asked
      rw [Op.fillsSlot, sends]
    rw [length] at within
    rw [address, Nat.add_assoc, ByteMemory.read_part content (by omega), bytes, List.drop_take, List.drop_drop,
      List.take_take, min_eq_left (by omega)]
  next => cases drains

end Sheltered

namespace Wired

/-- The kernel copies bytes out of the slot of a connection. -/
theorem transmit {awaiter : Awaiter Op} (wired : Wired w) (sheltered : Sheltered pool w)
    (waits : w.loop.Awaits t a awaiter) (inside : a ∈ w.loop.inflight)
    (done : w.transmit t a awaiter.op n = some w') : Sheltered pool w' ∧ Wired w' := by
  unfold World.transmit at done
  split at done
  next fd len idx sends =>
    obtain ⟨room, done⟩ := Option.ite_none_right_eq_some.mp done
    cases Option.some.inj done
    have drains : awaiter.op.drainsSlot = true := by rw [Op.drainsSlot, sends]
    obtain ⟨c, at_t, shim, last, only, of_slot, _⟩ := sheltered.awaits waits
    obtain ⟨slot, length, _⟩ := of_slot.drains fd len idx sends
    obtain ⟨begins, _⟩ := wired.taken t a awaiter waits drains
    have names := sheltered.names waits drains (length ▸ room)
    have used : a < w.loop.suspensions := by
      obtain ⟨_, handlers, follows⟩ := sheltered.loop
      by_contra unused
      cases (follows.represents.queued.unused a (Nat.not_lt.mp unused)).symm.trans waits.made
    have sent : ∀ t', World.sent { w with wire := w.wire ++
        [(t, w.memory.read (awaiter.op.address + (w.taken a).length) n)] } t' =
          w.sent t' ++ if t' = t then w.memory.read (awaiter.op.address + (w.taken a).length) n else [] := by
      intro t'
      by_cases same : t' = t
      · simp [World.sent, same]
      · simp [World.sent, same, Ne.symm same]
    refine ⟨⟨sheltered.loop, sheltered.served, sheltered.kernel, sheltered.slots, sheltered.answers, sheltered.content,
      sheltered.stored⟩, ⟨fun t' a' awaiter' waits' drains' => ?_, fun a' above => ?_, fun x member => ?_,
      fun t' c' a' awaiter' at_t' waits' drains' => ?_, fun t' c' at_t' slot' quiet => ?_⟩⟩
    · show update w.taken a _ a' <+: _ ∧ (a' ∉ w.loop.inflight → (update w.taken a _ a').length = _)
      by_cases same : a' = a
      · subst same
        obtain ⟨rfl, rfl⟩ := waits.unique waits'
        refine ⟨?_, fun landed => absurd inside landed⟩
        have before := List.prefix_iff_eq_take.mp begins
        rw [update_self, names]
        nth_rewrite 1 [before]
        rw [← List.take_add]
        exact List.take_prefix _ _
      · rw [update_of_ne same]
        exact wired.taken t' a' awaiter' waits' drains'
    · have other : a' ≠ a := by
        have above : w.loop.suspensions ≤ a' := above
        omega
      exact (update_of_ne other ..).trans (wired.fresh a' above)
    · rcases List.mem_append.mp member with before | last
      · exact wired.known x before
      · cases List.mem_singleton.mp last
        exact (List.getElem?_eq_some_iff.mp at_t).1
    · refine (sent t').trans ?_
      show _ = confirmed (w.loop.exchanges t') ++ update w.taken a _ a'
      by_cases same : t' = t
      · subst same
        cases only a' awaiter' waits'
        rw [if_pos rfl, update_self, wired.pending t' c' a awaiter' at_t' waits' drains', List.append_assoc]
      · have other : a' ≠ a := by
          rintro rfl
          exact same (waits.unique waits').1
        rw [if_neg same, List.append_nil, update_of_ne other]
        exact wired.pending t' c' a' awaiter' at_t' waits' drains'
    · refine (sent t').trans ?_
      by_cases same : t' = t
      · subst same
        exact absurd ((quiet _ last).symm.trans drains) Bool.false_ne_true
      · rw [if_neg same, List.append_nil]
        exact wired.rest t' c' at_t' slot' quiet
  next => cases done

/-- The loop has gone on. -/
theorem goOn {m : Move Running} (wired : Wired w) (sheltered : Sheltered pool w) (after : Sheltered pool (w.goOn loop))
    (move : EventLoop.step code w.loop m = some loop) (none_posted : m.posted = none)
    (kernel : ∀ a r, m = .complete a r → ∀ t awaiter, w.loop.Awaits t a awaiter → awaiter.op.drainsSlot = true →
      (w.taken a).length = r.res.toNat) : Wired (w.goOn loop) := by
  obtain ⟨fault, handlers, follows⟩ := sheltered.loop
  cases follows.effect fault move with
  | @goes t e shim free log asks other started inflight suspensions _ awaits =>
    rw [spawns_none after.loop log, List.append_nil] at started
    have exchanges := exchanges_quiet log other
    refine ⟨fun t' a awaiter waits drains => ?_, fun a above => wired.fresh a (suspensions ▸ above),
      fun x member => started ▸ wired.known x member, fun t' c a awaiter at_t waits drains => ?_,
      fun t' c at_t slot quiet => ?_⟩
    · obtain ⟨begins, whole⟩ := wired.taken t' a awaiter (awaits _ _ _ waits) drains
      exact ⟨begins, fun landed => whole (inflight ▸ landed)⟩
    · show w.sent t' = confirmed (loop.exchanges t') ++ w.taken a
      rw [exchanges]
      exact wired.pending t' c a awaiter (started ▸ at_t) (awaits _ _ _ waits) drains
    · show w.sent t' = confirmed (loop.exchanges t')
      rw [exchanges]
      exact wired.rest t' c (started ▸ at_t) slot (quiet_before quiet log free)
  | @asks t op shim free log started inflight suspensions _ awaits =>
    have exchanges := exchanges_quiet log nofun
    refine ⟨fun t' a awaiter waits drains => ?_, fun a above => wired.fresh a ?_,
      fun x member => started ▸ wired.known x member, fun t' c a awaiter at_t waits drains => ?_,
      fun t' c at_t slot quiet => ?_⟩
    · rcases awaits t' a awaiter waits with ⟨old, before⟩ | ⟨rfl, rfl, rfl⟩
      · obtain ⟨begins, whole⟩ := wired.taken t' a awaiter before drains
        refine ⟨begins, fun landed => whole fun member => landed ?_⟩
        exact inflight ▸ List.mem_append_left _ member
      · refine ⟨wired.fresh _ le_rfl ▸ List.nil_prefix, fun landed => absurd ?_ landed⟩
        exact inflight ▸ List.mem_append_right _ (List.mem_singleton_self _)
    · have above : loop.suspensions ≤ a := above
      omega
    · show w.sent t' = confirmed (loop.exchanges t') ++ w.taken a
      rw [exchanges]
      rcases awaits t' a awaiter waits with ⟨old, before⟩ | ⟨rfl, rfl, rfl⟩
      · exact wired.pending t' c a awaiter (started ▸ at_t) before drains
      · obtain ⟨c', at_t', _, _, _, of_slot, _⟩ := after.awaits waits
        cases at_t.symm.trans at_t'
        rw [wired.fresh _ le_rfl, List.append_nil]
        exact wired.rest t' c (started ▸ at_t) (of_slot.drained drains) fun op last => absurd last (free op)
    · show w.sent t' = confirmed (loop.exchanges t')
      rw [exchanges]
      exact wired.rest t' c (started ▸ at_t) slot (quiet_before quiet log free)
  | @turn t a awaiter waits landed log started inflight suspensions _ awaits =>
    obtain ⟨c, at_t, _, last, only, of_slot, _⟩ := sheltered.awaits waits
    refine ⟨fun t' a' awaiter' waits' drains => ?_, fun a' above => wired.fresh a' (suspensions ▸ above),
      fun x member => started ▸ wired.known x member, fun t' c' a' awaiter' at_t' waits' drains => ?_,
      fun t' c' at_t' slot quiet => ?_⟩
    · obtain ⟨begins, whole⟩ := wired.taken t' a' awaiter' (awaits _ _ _ waits').2 drains
      exact ⟨begins, fun landed' => whole (inflight ▸ landed')⟩
    · obtain ⟨later, before⟩ := awaits t' a' awaiter' waits'
      have other : t' ≠ t := by
        rintro rfl
        exact later (only a' awaiter' before)
      show w.sent t' = confirmed (loop.exchanges t') ++ w.taken a'
      rw [exchanges_of_log log, if_neg other, List.append_nil]
      exact wired.pending t' c' a' awaiter' (started ▸ at_t') before drains
    · show w.sent t' = confirmed (loop.exchanges t')
      rw [exchanges_of_log log]
      have at_t' : w.loop.started[t']? = some (c', .handler) := started ▸ at_t'
      by_cases same : t' = t
      · subst same
        cases at_t.symm.trans at_t'
        rw [if_pos rfl]
        refine Eq.trans ?_ (confirmed_append _ awaiter.op awaiter.result).symm
        cases drains : awaiter.op.drainsSlot with
        | true =>
          -- what has been taken is what the answer says
          obtain ⟨begins, whole⟩ := wired.taken t' a awaiter waits drains
          rw [wired.pending t' c a awaiter at_t waits drains, Op.confirmed, if_pos (Op.drains_sends drains),
            ← whole landed, ← List.prefix_iff_eq_take.mp begins]
        | false =>
          have other : awaiter.op.sends = false :=
            Bool.eq_false_iff.mpr fun sends => Bool.false_ne_true (drains.symm.trans (of_slot.sends slot sends))
          rw [Op.confirmed, other, if_neg Bool.false_ne_true, List.append_nil]
          refine wired.rest t' c at_t slot fun op asked => ?_
          cases last.symm.trans asked
          exact drains
      · rw [if_neg same, List.append_nil]
        exact wired.rest t' c' at_t' slot (quiet_other quiet log same)
  | @complete t a awaiter r waits inside log started inflight suspensions _ awaits =>
    refine ⟨fun t' a' awaiter' waits' drains => ?_, fun a' above => wired.fresh a' (suspensions ▸ above),
      fun x member => started ▸ wired.known x member, fun t' c a' awaiter' at_t waits' drains => ?_,
      fun t' c at_t slot quiet => ?_⟩
    · rcases awaits t' a' awaiter' waits' with ⟨other, before⟩ | ⟨rfl, rfl, rfl⟩
      · obtain ⟨begins, whole⟩ := wired.taken t' a' awaiter' before drains
        refine ⟨begins, fun landed => whole fun member => landed ?_⟩
        exact inflight ▸ (List.mem_erase_of_ne other).mpr member
      · exact ⟨(wired.taken t' a' awaiter waits drains).1, fun _ => kernel a' r rfl t' awaiter waits drains⟩
    · show w.sent t' = confirmed (loop.exchanges t') ++ w.taken a'
      rw [exchanges_same log]
      rcases awaits t' a' awaiter' waits' with ⟨_, before⟩ | ⟨rfl, rfl, rfl⟩
      · exact wired.pending t' c a' awaiter' (started ▸ at_t) before drains
      · exact wired.pending t' c a' awaiter (started ▸ at_t) waits drains
    · show w.sent t' = confirmed (loop.exchanges t')
      rw [exchanges_same log]
      exact wired.rest t' c (started ▸ at_t) slot (quiet_same quiet log)
  | spawn => cases none_posted

theorem connect {fd : Int} (wired : Wired w) (sheltered : Sheltered pool w)
    (move : EventLoop.step code w.loop (.spawn ((w.construct fd).1, .handler)) = some loop) :
    Wired { w with loop := loop, bufPool := (w.construct fd).2 } := by
  obtain ⟨fault, handlers, follows⟩ := sheltered.loop
  cases follows.effect fault move with
  | spawn log started inflight suspensions shims awaits =>
    have length : loop.started.length = w.loop.started.length + 1 := by
      rw [started, List.length_append, List.length_singleton]
    have old : ∀ {t' c}, t' < w.loop.started.length → loop.started[t']? = some (c, State.handler) →
        w.loop.started[t']? = some (c, .handler) := by
      intro t' c below at_t
      rwa [started, List.getElem?_append_left below] at at_t
    refine ⟨fun t' a awaiter waits drains => ?_, fun a above => wired.fresh a (suspensions ▸ above), fun x member => ?_,
      fun t' c a awaiter at_t waits drains => ?_, fun t' c at_t slot quiet => ?_⟩
    · obtain ⟨begins, whole⟩ := wired.taken t' a awaiter (awaits _ _ _ waits) drains
      exact ⟨begins, fun landed => whole (inflight ▸ landed)⟩
    · show x.1 < loop.started.length
      have before := wired.known x member
      omega
    · show w.sent t' = confirmed (loop.exchanges t') ++ w.taken a
      rw [exchanges_same log]
      have before := awaits t' a awaiter waits
      obtain ⟨below, _⟩ := follows.awaits sheltered.alive before
      exact wired.pending t' c a awaiter (old below at_t) before drains
    · show w.sent t' = confirmed (loop.exchanges t')
      rw [exchanges_same log]
      by_cases below : t' < w.loop.started.length
      · exact wired.rest t' c (old below at_t) slot (quiet_same quiet log)
      · -- nothing has been sent for a new connection
        have none_sent : w.wire.filter (fun x => x.1 = t') = [] := by
          refine List.filter_eq_nil_iff.mpr fun x member same => below ?_
          exact of_decide_eq_true same ▸ wired.known x member
        rw [World.sent, none_sent, EventLoop.World.exchanges, follows.unstarted (Nat.not_lt.mp below)]
        rfl

theorem keep (wired : Wired w) (loop : w'.loop = w.loop) (taken : w'.taken = w.taken) (wire : w'.wire = w.wire) :
    Wired w' := by
  have sent : w'.sent = w.sent := by
    funext t
    rw [World.sent, wire, World.sent]
  refine ⟨?_, ?_, ?_, ?_, ?_⟩
  · rw [loop, taken]
    exact wired.taken
  · rw [loop, taken]
    exact wired.fresh
  · rw [loop, wire]
    exact wired.known
  · rw [loop, taken, sent]
    exact wired.pending
  · rw [loop, sent]
    exact wired.rest

end Wired

theorem pending_awaits (sheltered : Sheltered pool w) (found : w.pending a = some (t, op)) :
    a ∈ w.loop.inflight ∧ ∃ awaiter, w.loop.Awaits t a awaiter ∧ awaiter.op = op := by
  obtain ⟨_, handlers, follows⟩ := sheltered.loop
  obtain ⟨inside, found⟩ := Option.ite_none_right_eq_some.mp found
  obtain ⟨awaiter, made, found⟩ := Option.bind_eq_some_iff.mp found
  obtain ⟨t', owner, same⟩ := Option.bind_eq_some_iff.mp found
  cases same
  obtain ⟨_, awaiter', waits⟩ := follows.inflight inside
  cases made.symm.trans waits.made
  obtain ⟨_, f, k, next, here, rfl, point⟩ := id waits
  have owned : w.loop.ownerOf (some awaiter.handle) = some f.owner := by simp [EventLoop.World.ownerOf, here]
  cases owner.symm.trans owned
  exact ⟨inside, awaiter, waits, rfl⟩

theorem honest_stored (honest : w.honest a op r = true) (fills : op.fillsSlot = true) :
    w.memory.read op.address r.data.length = r.data := by
  unfold Op.fillsSlot at fills
  split at fills
  next same =>
    rw [World.honest, same] at honest
    exact of_decide_eq_true honest
  next => cases fills

theorem honest_taken (honest : w.honest a op r = true) (drains : op.drainsSlot = true) :
    (w.taken a).length = r.res.toNat := by
  unfold Op.drainsSlot at drains
  split at drains
  next same =>
    rw [World.honest, same] at honest
    exact of_decide_eq_true honest
  next => cases drains

theorem step_safe {act : Act} (built : Built pool) (enabled : pool.enabled = true)
    (held : Sheltered pool w ∧ Wired w) (move : step w act = some w') : Sheltered pool w' ∧ Wired w' := by
  obtain ⟨sheltered, wired⟩ := held
  cases act with
  | execute =>
    obtain ⟨loop, moved, rfl⟩ := Option.map_eq_some_iff.mp move
    have after := sheltered.goOn moved rfl fun _ _ same => by cases same
    exact ⟨after, wired.goOn sheltered after moved rfl fun _ _ same => by cases same⟩
  | turn =>
    obtain ⟨loop, moved, rfl⟩ := Option.map_eq_some_iff.mp move
    have after := sheltered.goOn moved rfl fun _ _ same => by cases same
    exact ⟨after, wired.goOn sheltered after moved rfl fun _ _ same => by cases same⟩
  | connect fd =>
    obtain ⟨loop, moved, rfl⟩ := Option.map_eq_some_iff.mp move
    exact ⟨sheltered.connect enabled moved, wired.connect sheltered moved⟩
  | deposit a offset bytes =>
    obtain ⟨⟨t, op⟩, found, done⟩ := Option.bind_eq_some_iff.mp move
    obtain ⟨inside, awaiter, waits, rfl⟩ := pending_awaits sheltered found
    refine ⟨sheltered.deposit built waits inside done, ?_⟩
    simp only [World.deposit] at done
    split at done
    · obtain ⟨_, done⟩ := Option.ite_none_right_eq_some.mp done
      cases Option.some.inj done
      exact wired.keep rfl rfl rfl
    · cases done
  | transmit a n =>
    obtain ⟨⟨t, op⟩, found, done⟩ := Option.bind_eq_some_iff.mp move
    obtain ⟨inside, awaiter, waits, rfl⟩ := pending_awaits sheltered found
    exact wired.transmit sheltered waits inside done
  | complete a r =>
    obtain ⟨⟨t, op⟩, found, done⟩ := Option.bind_eq_some_iff.mp move
    obtain ⟨inside, awaiter, waits, rfl⟩ := pending_awaits sheltered found
    obtain ⟨⟨answers, honest⟩, done⟩ := Option.ite_none_right_eq_some.mp done
    obtain ⟨loop, moved, rfl⟩ := Option.map_eq_some_iff.mp done
    have after := sheltered.goOn moved rfl fun a' r' same t' awaiter' waits' => by
      cases same
      cases (waits.unique waits').2
      exact ⟨answers, honest_stored honest⟩
    refine ⟨after, wired.goOn sheltered after moved rfl fun a' r' same t' awaiter' waits' drains => ?_⟩
    cases same
    cases (waits.unique waits').2
    exact honest_taken honest drains

theorem start_safe (built : Built pool) (enabled : pool.enabled = true) :
    Sheltered pool (start pool) ∧ Wired (start pool) := by
  obtain ⟨free, accounted⟩ := SlotOwners.run_accounted built enabled Run.start
  have nobody : ∀ t a awaiter, ¬ (start pool).loop.Awaits t a awaiter := fun _ _ _ waits => nomatch waits.made
  refine ⟨⟨run_sound Run.start, nofun, nofun, ⟨free, accounted⟩, ?_, nofun, ?_⟩, ⟨?_, fun _ _ => rfl, nofun, ?_, nofun⟩⟩
  · exact fun t a awaiter waits => absurd waits (nobody t a awaiter)
  · exact fun t a awaiter waits => absurd waits (nobody t a awaiter)
  · exact fun t a awaiter waits => absurd waits (nobody t a awaiter)
  · exact fun t c a awaiter _ waits => absurd waits (nobody t a awaiter)

/-- What is on the wire is a part of what has been received. -/
theorem sent_part (sheltered : Sheltered pool w) (wired : Wired w) (at_t : w.loop.started[t]? = some (c, .handler))
    (slot : c.hasFixedSlot = true) : (w.sent t).Sublist (received (w.loop.exchanges t)) ∧
      (Faithful c (w.loop.exchanges t) → w.sent t <+: received (w.loop.exchanges t)) := by
  obtain ⟨_, handlers, follows⟩ := id sheltered.loop
  have stage := sheltered.stage follows at_t
  by_cases sending : ∃ op, (handlers t).asks = some op ∧ op.drainsSlot = true
  · -- as if the send had been answered with what has been taken for it
    obtain ⟨op, asks, drains⟩ := sending
    obtain ⟨a, awaiter, waits, rfl⟩ := follows.awaiting (List.getElem?_eq_some_iff.mp at_t).1 asks
    obtain ⟨begins, _⟩ := wired.taken t a awaiter waits drains
    rw [wired.pending t c a awaiter at_t waits drains]
    by_cases nothing : w.taken a = []
    · rw [nothing, List.append_nil]
      exact delivered stage
    · let r : Answer := ⟨(w.taken a).length, []⟩
      obtain ⟨may_answer, no_data⟩ := Op.drains_answers (r := r) drains
      have answers : awaiter.op.Answers r := may_answer.mpr (Int.ofNat_le.mpr begins.length_le)
      have some_bytes : 0 < r.res := Int.ofNat_lt.mpr (List.length_pos_iff.mpr nothing)
      generalize handlers t = h at stage asks
      cases h with
      | blocked op next callers =>
        cases asks
        obtain ⟨sublist, prefixes⟩ := delivered (stage.answer answers)
        have out : confirmed (w.loop.exchanges t ++ [(awaiter.op, r)]) =
            confirmed (w.loop.exchanges t) ++ w.taken a := by
          rw [confirmed_append, Op.confirmed, if_pos (Op.drains_sends drains)]
          exact congrArg _ (List.prefix_iff_eq_take.mp begins).symm
        rw [out, received_append, no_data, List.append_nil] at sublist prefixes
        exact ⟨sublist, fun faithful => prefixes (Faithful.extend faithful some_bytes)⟩
      | _ => cases asks
  · have rest := wired.rest t c at_t slot fun op last => by
      have asks := (follows.asked (List.getElem?_eq_some_iff.mp at_t).1 op).mp last
      exact Bool.eq_false_iff.mpr fun drains => sending ⟨op, asks, drains⟩
    rw [rest]
    exact delivered stage

/-- Sending out of the slots, without a copy of the bytes, while the kernel
receives into them: what a send names stays as it was when the send was asked
for, and what the kernel takes out of the memory is what was received on the
same connection; with no send pending, all of it. -/
theorem zero_copy {capacity slotSize : UInt32} {memalign : Nat → Option Nat} {ret : Int} {acts : List Act}
    (block : ∀ total p, memalign total = some p → p + total ≤ 2 ^ 64)
    (made : RegisteredBufferPool.make capacity slotSize memalign ret = pool) (enabled : pool.enabled = true)
    (reach : Run step (start pool) acts w) :
    w.loop.fault = none ∧ w.loop.aborted = false ∧
      (∀ t a awaiter, w.loop.Awaits t a awaiter → awaiter.op.drainsSlot = true →
        w.memory.read awaiter.op.address awaiter.op.bytes.length = awaiter.op.bytes) ∧
      ∀ t c, w.loop.started[t]? = some (c, .handler) → c.hasFixedSlot = true →
        (w.sent t).Sublist (received (w.loop.exchanges t)) ∧
        (Faithful c (w.loop.exchanges t) → w.sent t <+: received (w.loop.exchanges t)) ∧
        (w.loop.stack = [] → (∀ op, (w.loop.events t).getLast? = some (.asks op) → op.sends = false) →
          Prompt (w.loop.exchanges t) → w.sent t = received (w.loop.exchanges t)) := by
  subst made
  have built := SlotOwners.make_built block enabled
  obtain ⟨sheltered, wired⟩ :=
    reach.invariant (start_safe built enabled) fun held move => step_safe built enabled held move
  obtain ⟨fault, handlers, follows⟩ := id sheltered.loop
  refine ⟨fault, sheltered.alive, fun t a awaiter waits drains => ?_, fun t c at_t slot => ?_⟩
  · have whole : 0 + awaiter.op.bytes.length ≤ awaiter.op.bytes.length := (Nat.zero_add _).le
    simpa using sheltered.names waits drains whole
  · obtain ⟨sublist, prefixes⟩ := sent_part sheltered wired at_t slot
    refine ⟨sublist, prefixes, fun idle quiet prompt => ?_⟩
    have below := (List.getElem?_eq_some_iff.mp at_t).1
    have resting := wired.rest t c at_t slot fun op last =>
      Bool.eq_false_iff.mpr fun drains => Bool.false_ne_true ((quiet op last).symm.trans (Op.drains_sends drains))
    rw [resting]
    exact sent_back (sheltered.stage follows at_t) (follows.represents.rests code idle below)
      (fun op asks => quiet op ((follows.asked below op).mpr asks)) prompt

theorem lowBlock_fits (total p : Nat) (given : SlotOwners.lowBlock total = some p) : p + total ≤ 2 ^ 64 := by
  obtain ⟨small, same⟩ := Option.ite_none_right_eq_some.mp given
  cases Option.some.inj same
  omega

/-- The second connection receives while the send of the first is on its way. -/
def crossing : List Act :=
  [.connect 7, .execute, .execute, .connect 8, .execute, .execute, .deposit 0 0 [104, 105], .complete 0 ⟨2, [104, 105]⟩,
    .turn, .execute, .execute, .execute, .deposit 1 0 [33, 33, 33], .transmit 2 1, .deposit 1 1 [34], .transmit 2 1,
    .complete 2 ⟨2, []⟩, .turn, .execute, .execute, .execute]

theorem crossing_echoed : (after step (start SlotOwners.smallPool) crossing).sent 0 = [104, 105] := by
  have reach : Run step (start SlotOwners.smallPool) crossing (after step (start SlotOwners.smallPool) crossing) :=
    run_eq_some rfl
  obtain ⟨_, _, _, echoes⟩ := zero_copy lowBlock_fits rfl rfl reach
  exact (echoes 0 _ rfl rfl).2.2 rfl (fun op asks => by cases asks; rfl) (by decide)

end CoroNet.EchoServer.ZeroCopy
