import CoroNet.Timer.Ownership
import Mathlib.Data.List.Nodup

namespace CoroNet.Timers

open Function

variable {detached : List TimerPtr} {w : World} {t : TimerPtr} {c : Cell}

theorem World.link_points {callback addr : Nat} {delay interval now : Int} (owned : Owned detached w)
    (live : w.Points t c) : (w.link callback delay interval now addr).Points t c := by
  have old := (owned.live _ _ live.1).1
  refine ⟨?_, live.2⟩
  simp only [link, update_of_ne (Nat.ne_of_lt old)]
  exact live.1

theorem World.link_heap {callback addr b : Nat} {delay interval now : Int} {d : Cell}
    (live : (w.link callback delay interval now addr).heap b = some d) :
    (b = w.blocks ∧ d = ⟨addr, Timer.new callback (wrap64 (now + delay)) interval w.nextSeq⟩) ∨
      (b ≠ w.blocks ∧ w.heap b = some d) := by
  by_cases new : b = w.blocks
  · subst new
    simp only [link, update_self, Option.some.injEq] at live
    exact Or.inl ⟨rfl, live.symm⟩
  · simp only [link, update_of_ne new] at live
    exact Or.inr ⟨new, live⟩

/-- A new timer goes into both indexes, at an address that no live timer has. -/
theorem Owned.link_mem (owned : Owned detached w) {callback addr : Nat} {delay interval now : Int}
    (free : w.canAllocate addr = true) {e : Entry} :
    e ∈ (w.link callback delay interval now addr).timers ↔
      e = ⟨wrap64 (now + delay), ⟨addr, w.blocks⟩⟩ ∨ e ∈ w.timers := by
  refine KeyedSet.mem_insert fun e member same => ?_
  obtain ⟨d, live, _⟩ := owned.entry e member
  simp only [Entry.key, toLex_inj, Prod.mk.injEq] at same
  exact World.canAllocate_fresh free (owned.live _ _ live.1).1 live.1 (live.2.trans same.2)

theorem Owned.link (owned : Owned detached w) {callback addr : Nat} {delay interval now : Int}
    (free : w.canAllocate addr = true) : Owned detached (w.link callback delay interval now addr) := by
  have here : (w.link callback delay interval now addr).Points ⟨addr, w.blocks⟩
      ⟨addr, Timer.new callback (wrap64 (now + delay)) interval w.nextSeq⟩ :=
    ⟨by simp [World.link], rfl⟩
  constructor
  case next =>
    simp only [World.link, owned.next]
    exact Nat.mod_add_mod _ _ _
  case live =>
    intro b d live
    rcases World.link_heap live with ⟨rfl, rfl⟩ | ⟨_, live⟩
    · exact ⟨Nat.lt_succ_self _, owned.next⟩
    · exact ⟨(owned.live b d live).1.trans (Nat.lt_succ_self _), (owned.live b d live).2⟩
  case addr =>
    intro b b' d d' live live' same
    rcases World.link_heap live with ⟨rfl, rfl⟩ | ⟨_, live⟩ <;>
      rcases World.link_heap live' with ⟨rfl, rfl⟩ | ⟨_, live'⟩
    · rfl
    · exact absurd same.symm (World.canAllocate_fresh free (owned.live _ _ live').1 live')
    · exact absurd same (World.canAllocate_fresh free (owned.live _ _ live).1 live)
    · exact owned.addr b b' d d' live live' same
  case entry =>
    intro e member
    rcases (owned.link_mem free).mp member with rfl | member
    · exact ⟨_, here, rfl⟩
    · obtain ⟨d, live, time⟩ := owned.entry e member
      exact ⟨d, World.link_points owned live, time⟩
  case active =>
    intro s p index
    by_cases new : s = w.nextSeq
    · subst new
      simp only [World.link, update_self, Option.some.injEq] at index
      subst index
      exact ⟨_, here, rfl, (owned.link_mem free).mpr (Or.inl rfl)⟩
    · simp only [World.link, update_of_ne new] at index
      obtain ⟨d, live, sequence, member⟩ := owned.active s p index
      exact ⟨d, World.link_points owned live, sequence, (owned.link_mem free).mpr (Or.inr member)⟩
  case batch =>
    intro p member
    obtain ⟨⟨d, live⟩, apart⟩ := owned.batch p member
    refine ⟨⟨d, World.link_points owned live⟩, ?_⟩
    intro e queued same
    rcases (owned.link_mem free).mp queued with rfl | queued
    · have old := (owned.live _ _ live.1).1
      rw [← same] at old
      exact Nat.lt_irrefl _ old
    · exact apart e queued same
  case nodup => exact owned.nodup
  case owner =>
    intro b d live
    rcases World.link_heap live with ⟨rfl, rfl⟩ | ⟨_, live⟩
    · exact Or.inl ((owned.link_mem free).mpr (Or.inl rfl))
    · exact (owned.owner b d live).imp_left fun member => (owned.link_mem free).mpr (Or.inr member)
  case deleted =>
    intro b
    have old := owned.deleted b
    by_cases new : b = w.blocks
    · subst new
      simp only [World.link, update_self]
      simp [old]
    · simp only [World.link, update_of_ne new, old]
      refine and_congr_left fun _ => ⟨fun lt => lt.trans (Nat.lt_succ_self _), fun lt => ?_⟩
      omega
  case once => exact owned.once

theorem Indexed.link (indexed : Indexed w) (owned : Owned detached w) {callback addr : Nat}
    {delay interval now : Int} (free : w.canAllocate addr = true) (room : w.blocks + 1 < sequenceBound) :
    Indexed (w.link callback delay interval now addr) := by
  intro e member d live
  rcases (owned.link_mem free).mp member with rfl | member
  · rcases World.link_heap live.1 with ⟨_, rfl⟩ | ⟨different, _⟩
    · simp [World.link, Timer.new]
    · exact absurd rfl different
  · obtain ⟨d', live', _⟩ := owned.entry e member
    obtain rfl := (World.link_points owned live').unique live
    have fresh : d'.timer.sequence ≠ w.nextSeq := by
      obtain ⟨old, number⟩ := owned.live _ _ live'.1
      rw [number, owned.next, Nat.mod_eq_of_lt (by omega), Nat.mod_eq_of_lt room]
      omega
    simpa only [World.link, update_of_ne fresh] using indexed e member d' live'

/-- Deleting a live timer keeps what is known of every other allocation. -/
theorem World.delete_heap {b : Nat} {d : Cell} (live : update w.heap t.block none b = some d) :
    b ≠ t.block ∧ w.heap b = some d := by
  by_cases same : b = t.block
  · subst same
    simp at live
  · exact ⟨same, by simpa only [update_of_ne same] using live⟩

theorem Owned.delete_deleted (owned : Owned detached w) (live : w.Points t c) (b : Nat) :
    b ∈ w.deleted ++ [t.block] ↔ b < w.blocks ∧ update w.heap t.block none b = none := by
  by_cases same : b = t.block
  · subst same
    simp [(owned.live _ _ live.1).1]
  · simp [same, owned.deleted b]

theorem Owned.delete_once (owned : Owned detached w) (live : w.Points t c) :
    (w.deleted ++ [t.block]).Nodup := by
  refine List.nodup_append.mpr ⟨owned.once, List.nodup_singleton _, ?_⟩
  intro b member b' member' same
  obtain rfl := List.mem_singleton.mp member'
  subst same
  have gone := ((owned.deleted _).mp member).2
  rw [live.1] at gone
  exact Option.some_ne_none _ gone

theorem World.unlink_points {s : Nat} {p : TimerPtr} {d : Cell} (live : w.Points t c) (different : p ≠ t)
    (other : w.Points p d) : (w.unlink s t c).Points p d := by
  have block : p.block ≠ t.block := fun same => different (live.eq_of_block other same)
  exact ⟨by simpa only [World.unlink, update_of_ne block] using other.1, other.2⟩

/-- A cancel of a queued timer takes exactly its entry out of `timers_`. -/
theorem Owned.unlink_mem (owned : Owned detached w) {s : Nat} (live : w.Points t c) {e : Entry} :
    e ∈ (w.unlink s t c).timers ↔ e ∈ w.timers ∧ e.timer ≠ t := by
  refine KeyedSet.mem_erase.trans (and_congr_right fun member => not_congr ⟨owned.entry_key member live, ?_⟩)
  rintro rfl
  obtain ⟨d, live', time⟩ := owned.entry e member
  rw [live.unique live', time]

/-- A cancel of a queued timer takes it out of both indexes and deletes it. -/
theorem Owned.unlink (owned : Owned detached w) {s : Nat} (index : w.active s = some t) (live : w.Points t c) :
    Owned detached (w.unlink s t c) := by
  obtain ⟨c', live', sequence, queued⟩ := owned.active s t index
  obtain rfl := live.unique live'
  constructor
  case next => exact owned.next
  case live => exact fun b d other => owned.live b d (World.delete_heap other).2
  case addr =>
    intro b b' d d' other other' same
    exact owned.addr b b' d d' (World.delete_heap other).2 (World.delete_heap other').2 same
  case entry =>
    intro e found
    obtain ⟨found, apart⟩ := (owned.unlink_mem live).mp found
    obtain ⟨d, other, time⟩ := owned.entry e found
    exact ⟨d, World.unlink_points live apart other, time⟩
  case active =>
    intro s' p index'
    have different : s' ≠ s := by
      rintro rfl
      simp [World.unlink] at index'
    simp only [World.unlink, update_of_ne different] at index'
    obtain ⟨d, other, sequence', found⟩ := owned.active s' p index'
    have apart : p ≠ t := by
      rintro rfl
      rw [live.unique other] at sequence
      exact different (sequence'.symm.trans sequence)
    exact ⟨d, World.unlink_points live apart other, sequence', (owned.unlink_mem live).mpr ⟨found, apart⟩⟩
  case batch =>
    intro p found
    obtain ⟨⟨d, other⟩, absent⟩ := owned.batch p found
    have apart : p ≠ t := fun same => absent _ queued same.symm
    exact ⟨⟨d, World.unlink_points live apart other⟩, fun e member => absent e ((owned.unlink_mem live).mp member).1⟩
  case nodup => exact owned.nodup
  case owner =>
    intro b d other
    obtain ⟨block, other⟩ := World.delete_heap other
    refine (owned.owner b d other).imp_left fun found => (owned.unlink_mem live).mpr ⟨found, ?_⟩
    exact fun same => block (congrArg TimerPtr.block same)
  case deleted => exact owned.delete_deleted live
  case once => exact owned.delete_once live

theorem Indexed.unlink (indexed : Indexed w) (owned : Owned detached w) (room : w.blocks < sequenceBound)
    {s : Nat} (index : w.active s = some t) (live : w.Points t c) : Indexed (w.unlink s t c) := by
  intro e member d other
  obtain ⟨member, apart⟩ := (owned.unlink_mem live).mp member
  obtain ⟨d', other', _⟩ := owned.entry e member
  obtain rfl := (World.unlink_points live apart other').unique other
  obtain ⟨c', live', sequence, _⟩ := owned.active s t index
  obtain rfl := live.unique live'
  have different : d'.timer.sequence ≠ s := by
    intro same
    have block := owned.sequence_inj room other'.1 live.1 (same.trans sequence.symm)
    exact apart (live.eq_of_block other' block)
  simpa only [World.unlink, update_of_ne different] using indexed e member d' other'

theorem World.eraseActive_ok (w : World) (popped : List Entry) (active : Nat → Option TimerPtr)
    (live : ∀ e ∈ popped, ∃ c, w.Points e.timer c) :
    ∃ active', w.eraseActive popped active = .ok active' ∧ ∀ s p, active' s = some p ↔
      active s = some p ∧ ∀ e ∈ popped, ∀ c, w.Points e.timer c → c.timer.sequence ≠ s := by
  induction popped generalizing active with
  | nil => exact ⟨active, rfl, by simp⟩
  | cons e rest ih =>
    obtain ⟨c, here⟩ := live e (List.mem_cons_self ..)
    obtain ⟨active', run, spec⟩ := ih (update active c.timer.sequence none)
      fun e' member => live e' (List.mem_cons_of_mem _ member)
    refine ⟨active', by simp [World.eraseActive, here.deref, bind, Except.bind, run], ?_⟩
    intro s p
    rw [spec]
    by_cases same : s = c.timer.sequence
    · subst same
      simp only [update_self, reduceCtorEq, false_and, false_iff, not_and, not_forall]
      exact fun _ => ⟨e, List.mem_cons_self .., c, here, by simp⟩
    · simp only [update_of_ne same, List.forall_mem_cons]
      refine and_congr_right fun _ => ⟨fun others => ⟨?_, others⟩, fun both => both.2⟩
      intro d other
      rw [← here.unique other]
      exact fun same' => same same'.symm

/-- The entries `handleExpired` pops, in order, and those it leaves. -/
def World.due (w : World) (now : Int) : List Entry := (w.timers.popWhile fun e => e.time ≤ now).1

def World.later (w : World) (now : Int) : KeyedSet Entry.key := (w.timers.popWhile fun e => e.time ≤ now).2

theorem World.mem_timers {now : Int} {e : Entry} : e ∈ w.timers ↔ e ∈ w.due now ∨ e ∈ w.later now :=
  KeyedSet.mem_popWhile

theorem World.not_due_later {now : Int} {e : Entry} (due : e ∈ w.due now) : e ∉ w.later now :=
  fun left => (KeyedSet.popWhile_lt due left).false

/-- The index that is left keeps exactly the sequence numbers no popped timer has. -/
def World.IndexLeft (w : World) (now : Int) (active : Nat → Option TimerPtr) : Prop :=
  ∀ s p, active s = some p ↔
    w.active s = some p ∧ ∀ e ∈ w.due now, ∀ c, w.Points e.timer c → c.timer.sequence ≠ s

/-- The state in which `handleExpired` starts to call back. -/
def World.popped (w : World) (now : Int) (active : Nat → Option TimerPtr) : World :=
  let expired := (w.due now).map Entry.timer
  { w with
    timers := w.later now
    active := active
    clock := now
    callingExpired := true
    activation := .batch now expired expired false }

theorem Owned.expire_ok (owned : Owned detached w) (now : Int) :
    ∃ active, w.expire now = .ok (w.popped now active) ∧ w.IndexLeft now active := by
  obtain ⟨active, run, spec⟩ := w.eraseActive_ok (w.due now) w.active
    fun e member => (owned.entry e (World.mem_timers.mpr (Or.inl member))).imp fun _ h => h.1
  have run' : w.eraseActive (w.timers.popWhile fun e => e.time ≤ now).1 w.active = .ok active := run
  exact ⟨active, by simp [World.expire, run', bind, Except.bind, World.popped, World.due, World.later], spec⟩

/-- The popped timers leave both indexes and stay alive. -/
theorem Owned.popped (owned : Owned [] w) {now : Int} {active : Nat → Option TimerPtr}
    (left : w.IndexLeft now active) : Owned ((w.due now).map Entry.timer) (w.popped now active) := by
  have taken : ∀ e ∈ w.due now, e ∈ w.timers := fun e member => World.mem_timers.mpr (Or.inl member)
  have stayed : ∀ e ∈ w.later now, e ∈ w.timers := fun e member => World.mem_timers.mpr (Or.inr member)
  constructor
  case next => exact owned.next
  case live => exact owned.live
  case addr => exact owned.addr
  case entry => exact fun e member => owned.entry e (stayed e member)
  case active =>
    intro s p index
    obtain ⟨index, apart⟩ := (left s p).mp index
    obtain ⟨c, live, sequence, member⟩ := owned.active s p index
    refine ⟨c, live, sequence, (World.mem_timers.mp member).resolve_left ?_⟩
    exact fun due => apart _ due c live sequence
  case batch =>
    intro p member
    obtain ⟨e, due, rfl⟩ := List.mem_map.mp member
    obtain ⟨c, live, _⟩ := owned.entry e (taken e due)
    refine ⟨⟨c, live⟩, fun e' member' same => ?_⟩
    obtain rfl := owned.entry_timer (stayed e' member') (taken e due) same
    exact World.not_due_later due member'
  case nodup =>
    refine (List.nodup_map_iff_inj_on ?_).mpr fun e due e' due' same =>
      owned.entry_timer (taken e due) (taken e' due') same
    exact KeyedSet.popWhile_sorted.imp fun {a b} lt same => lt.ne (congrArg Entry.key same)
  case owner =>
    intro b c live
    have member := (owned.owner b c live).resolve_right List.not_mem_nil
    rcases World.mem_timers.mp member with due | later
    · exact Or.inr (List.mem_map.mpr ⟨_, due, rfl⟩)
    · exact Or.inl later
  case deleted => exact owned.deleted
  case once => exact owned.once

theorem Indexed.popped (indexed : Indexed w) (owned : Owned [] w) (room : w.blocks < sequenceBound) {now : Int}
    {active : Nat → Option TimerPtr} (left : w.IndexLeft now active) : Indexed (w.popped now active) := by
  intro e member c live
  have queued : e ∈ w.timers := World.mem_timers.mpr (Or.inr member)
  refine (left _ _).mpr ⟨indexed e queued c live, fun e' due c' live' same => ?_⟩
  have block := owned.sequence_inj room live'.1 live.1 same
  have timer := World.Points.eq_of_block live live' block
  obtain rfl := owned.entry_timer (World.mem_timers.mpr (Or.inl due)) queued timer
  exact World.not_due_later due member

/-- A periodic timer of the batch goes back into both indexes under its new
expiration. -/
def World.relink (w : World) (t : TimerPtr) (c : Cell) (now : Int) : World :=
  { w with
    heap := update w.heap t.block (some ⟨t.addr, c.timer.restart now⟩)
    timers := w.timers.insert ⟨(c.timer.restart now).expiration, t⟩
    active := update w.active c.timer.sequence (some t)
    overflow := w.overflow || !fits64 (now + c.timer.interval) }

theorem World.relink_heap {now : Int} {b : Nat} {d : Cell} (other : (w.relink t c now).heap b = some d) :
    (b = t.block ∧ d = ⟨t.addr, c.timer.restart now⟩) ∨ (b ≠ t.block ∧ w.heap b = some d) := by
  by_cases same : b = t.block
  · subst same
    simp only [relink, update_self, Option.some.injEq] at other
    exact Or.inl ⟨rfl, other.symm⟩
  · simp only [relink, update_of_ne same] at other
    exact Or.inr ⟨same, other⟩

theorem World.relink_points {now : Int} {p : TimerPtr} {d : Cell} (live : w.Points t c) (different : p ≠ t)
    (other : w.Points p d) : (w.relink t c now).Points p d := by
  have block : p.block ≠ t.block := fun same => different (live.eq_of_block other same)
  exact ⟨by simpa only [World.relink, update_of_ne block] using other.1, other.2⟩

theorem Owned.relink_mem (owned : Owned (t :: detached) w) (live : w.Points t c) {now : Int} {e : Entry} :
    e ∈ (w.relink t c now).timers ↔ e = ⟨(c.timer.restart now).expiration, t⟩ ∨ e ∈ w.timers := by
  refine KeyedSet.mem_insert fun e member same => ?_
  exact (owned.batch t (List.mem_cons_self ..)).2 e member (owned.entry_key member live same)

theorem Owned.relink (owned : Owned (t :: detached) w) (live : w.Points t c) (now : Int) :
    Owned detached (w.relink t c now) := by
  have nodup := List.nodup_cons.mp owned.nodup
  have absent := (owned.batch t (List.mem_cons_self ..)).2
  have here : (w.relink t c now).Points t ⟨t.addr, c.timer.restart now⟩ := ⟨by simp [World.relink], rfl⟩
  constructor
  case next => exact owned.next
  case live =>
    intro b d other
    rcases World.relink_heap other with ⟨rfl, rfl⟩ | ⟨_, other⟩
    · have old := owned.live t.block c live.1
      exact old
    · exact owned.live b d other
  case addr =>
    intro b b' d d' other other' same
    rcases World.relink_heap other with ⟨rfl, rfl⟩ | ⟨_, other⟩ <;>
      rcases World.relink_heap other' with ⟨rfl, rfl⟩ | ⟨_, other'⟩
    · rfl
    · exact owned.addr _ _ _ _ live.1 other' (live.2.trans same)
    · exact owned.addr _ _ _ _ other live.1 (same.trans live.2.symm)
    · exact owned.addr _ _ _ _ other other' same
  case entry =>
    intro e member
    rcases (owned.relink_mem live).mp member with rfl | member
    · exact ⟨_, here, rfl⟩
    · obtain ⟨d, other, time⟩ := owned.entry e member
      exact ⟨d, World.relink_points live (absent e member) other, time⟩
  case active =>
    intro s p index
    by_cases same : s = c.timer.sequence
    · subst same
      simp only [World.relink, update_self, Option.some.injEq] at index
      subst index
      exact ⟨_, here, rfl, (owned.relink_mem live).mpr (Or.inl rfl)⟩
    · simp only [World.relink, update_of_ne same] at index
      obtain ⟨d, other, sequence, member⟩ := owned.active s p index
      exact ⟨d, World.relink_points live (absent _ member) other, sequence,
        (owned.relink_mem live).mpr (Or.inr member)⟩
  case batch =>
    intro p member
    obtain ⟨⟨d, other⟩, apart⟩ := owned.batch p (List.mem_cons_of_mem _ member)
    have different : p ≠ t := fun same => nodup.1 (same ▸ member)
    refine ⟨⟨d, World.relink_points live different other⟩, fun e queued same => ?_⟩
    rcases (owned.relink_mem live).mp queued with rfl | queued
    · exact different same.symm
    · exact apart e queued same
  case nodup => exact nodup.2
  case owner =>
    intro b d other
    rcases World.relink_heap other with ⟨rfl, rfl⟩ | ⟨different, other⟩
    · exact Or.inl ((owned.relink_mem live).mpr (Or.inl rfl))
    · rcases owned.owner b d other with queued | member
      · exact Or.inl ((owned.relink_mem live).mpr (Or.inr queued))
      · refine Or.inr ((List.mem_cons.mp member).resolve_left fun same => ?_)
        exact different (congrArg TimerPtr.block same)
  case deleted =>
    intro b
    by_cases same : b = t.block
    · subst same
      simp [World.relink, owned.deleted, live.1]
    · simpa only [World.relink, update_of_ne same] using owned.deleted b
  case once => exact owned.once

theorem Indexed.relink (indexed : Indexed w) (owned : Owned (t :: detached) w) (room : w.blocks < sequenceBound)
    (live : w.Points t c) (now : Int) : Indexed (w.relink t c now) := by
  intro e member d other
  rcases (owned.relink_mem live).mp member with rfl | member
  · rcases World.relink_heap other.1 with ⟨_, rfl⟩ | ⟨different, _⟩
    · simp [World.relink, Timer.restart]
    · exact absurd rfl different
  · have apart := (owned.batch t (List.mem_cons_self ..)).2 e member
    obtain ⟨d', other', _⟩ := owned.entry e member
    obtain rfl := (World.relink_points live apart other').unique other
    have different : d'.timer.sequence ≠ c.timer.sequence := fun same =>
      apart (live.eq_of_block other' (owned.sequence_inj room other'.1 live.1 same))
    simpa only [World.relink, update_of_ne different] using indexed e member d' other'

/-- A timer of the batch that is not re-inserted is deleted. -/
def World.drop (w : World) (t : TimerPtr) : World :=
  { w with heap := update w.heap t.block none, deleted := w.deleted ++ [t.block] }

theorem World.drop_points {p : TimerPtr} {d : Cell} (live : w.Points t c) (different : p ≠ t)
    (other : w.Points p d) : (w.drop t).Points p d := by
  have block : p.block ≠ t.block := fun same => different (live.eq_of_block other same)
  exact ⟨by simpa only [World.drop, update_of_ne block] using other.1, other.2⟩

theorem Owned.drop (owned : Owned (t :: detached) w) (live : w.Points t c) : Owned detached (w.drop t) := by
  have nodup := List.nodup_cons.mp owned.nodup
  have absent := (owned.batch t (List.mem_cons_self ..)).2
  constructor
  case next => exact owned.next
  case live => exact fun b d other => owned.live b d (World.delete_heap other).2
  case addr =>
    intro b b' d d' other other' same
    exact owned.addr b b' d d' (World.delete_heap other).2 (World.delete_heap other').2 same
  case entry =>
    intro e member
    obtain ⟨d, other, time⟩ := owned.entry e member
    exact ⟨d, World.drop_points live (absent e member) other, time⟩
  case active =>
    intro s p index
    obtain ⟨d, other, sequence, member⟩ := owned.active s p index
    exact ⟨d, World.drop_points live (absent _ member) other, sequence, member⟩
  case batch =>
    intro p member
    obtain ⟨⟨d, other⟩, apart⟩ := owned.batch p (List.mem_cons_of_mem _ member)
    exact ⟨⟨d, World.drop_points live (fun same => nodup.1 (same ▸ member)) other⟩, apart⟩
  case nodup => exact nodup.2
  case owner =>
    intro b d other
    obtain ⟨different, other⟩ := World.delete_heap other
    refine (owned.owner b d other).imp_right fun member => (List.mem_cons.mp member).resolve_left fun same => ?_
    exact different (congrArg TimerPtr.block same)
  case deleted => exact owned.delete_deleted live
  case once => exact owned.delete_once live

theorem Indexed.drop (indexed : Indexed w) (owned : Owned (t :: detached) w) (live : w.Points t c) :
    Indexed (w.drop t) := by
  intro e member d other
  obtain ⟨d', other', _⟩ := owned.entry e member
  have apart := (owned.batch t (List.mem_cons_self ..)).2 e member
  obtain rfl := (World.drop_points live apart other').unique other
  exact indexed e member d' other'

end CoroNet.Timers
