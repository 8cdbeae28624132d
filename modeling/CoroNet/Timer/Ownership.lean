import CoroNet.Timer.Queue

namespace CoroNet.Timers

open Function Transition

theorem Entry.time_le {e e' : Entry} (le : Entry.key e ≤ Entry.key e') : e.time ≤ e'.time := by
  rcases Prod.Lex.toLex_le_toLex.mp le with lt | ⟨same, _⟩
  · exact lt.le
  · exact same.le

namespace World

/-- The pointer is to a live timer. -/
def Points (w : World) (t : TimerPtr) (c : Cell) : Prop := w.heap t.block = some c ∧ c.addr = t.addr

variable {w : World} {t p : TimerPtr} {c : Cell} {id : TimerId} {now : Int}

theorem Points.deref (live : w.Points t c) : w.deref t = .ok c.timer := by
  simp [World.deref, live.1]

theorem Points.delete (live : w.Points t c) :
    w.delete t = .ok { w with heap := update w.heap t.block none, deleted := w.deleted ++ [t.block] } := by
  simp [World.delete, live.1]

theorem Points.unique {d : Cell} (h : w.Points t c) (h' : w.Points t d) : c = d :=
  Option.some.inj (h.1.symm.trans h'.1)

theorem Points.ptr (live : w.Points t c) : t = ⟨c.addr, t.block⟩ := by
  cases t
  simp [live.2]

theorem Points.eq_of_block {d : Cell} (live : w.Points t c) (other : w.Points p d)
    (same : p.block = t.block) : p = t := by
  have cell := other.1
  rw [same, live.1] at cell
  obtain rfl := Option.some.inj cell
  rw [live.ptr, other.ptr, same]

/-- What a cancel of a queued timer leaves before the alarm is looked at. -/
def unlink (w : World) (seq : Nat) (t : TimerPtr) (c : Cell) : World :=
  { w with
    timers := w.timers.erase (Entry.key ⟨c.timer.expiration, t⟩)
    active := update w.active seq none
    cancelingSeqs := if w.callingExpired then w.cancelingSeqs ++ [seq] else w.cancelingSeqs
    heap := update w.heap t.block none
    deleted := w.deleted ++ [t.block] }

/-- The timer is the first of `timers_`. -/
def IsTop (w : World) (t : TimerPtr) : Prop := w.timers.first?.map (·.timer.addr) = some t.addr

instance : Decidable (w.IsTop t) := inferInstanceAs (Decidable (_ = _))

theorem cancel_invalid (empty : id.timer = none) : w.cancel id now = .ok w := by
  simp [cancel, TimerId.valid, empty]

theorem cancel_missing (valid : id.timer ≠ none) (missing : w.active id.seq = none) :
    w.cancel id now =
      .ok (if w.callingExpired then { w with cancelingSeqs := w.cancelingSeqs ++ [id.seq] } else w) := by
  simp [cancel, TimerId.valid, Option.isSome_iff_ne_none.mpr valid, missing]

theorem cancel_found (valid : id.timer ≠ none) (found : w.active id.seq = some t) (live : w.Points t c) :
    w.cancel id now =
      .ok (if w.IsTop t then (w.unlink id.seq t c).rearm now else w.unlink id.seq t c) := by
  simp only [cancel, TimerId.valid, Option.isSome_iff_ne_none.mpr valid, found, live.deref]
  simp [delete, live.1, bind, Except.bind, unlink, IsTop]

/-- The new timer and its two index entries, before the alarm is looked at. -/
def link (w : World) (callback : Nat) (delay interval now : Int) (addr : Nat) : World :=
  let time := wrap64 (now + delay)
  { w with
    nextSeq := (w.nextSeq + 1) % sequenceBound
    heap := update w.heap w.blocks (some ⟨addr, Timer.new callback time interval w.nextSeq⟩)
    blocks := w.blocks + 1
    timers := w.timers.insert ⟨time, ⟨addr, w.blocks⟩⟩
    active := update w.active w.nextSeq (some ⟨addr, w.blocks⟩)
    clock := now
    overflow := w.overflow || !fits64 (now + delay)
    issued := w.issued ++ [⟨some ⟨addr, w.blocks⟩, w.nextSeq⟩] }

/-- The queue was empty, or its first expiration is later than the time. -/
def NewTop (w : World) (time : Int) : Prop := ∀ e, w.timers.first? = some e → time < e.time

theorem insertNew_eq (w : World) (callback : Nat) (delay interval now now' : Int) (addr : Nat) :
    (w.NewTop (wrap64 (now + delay)) ∧
      w.insertNew callback delay interval now now' addr =
        (w.link callback delay interval now addr).resetTimerfd (wrap64 (now + delay)) now') ∨
    (¬ w.NewTop (wrap64 (now + delay)) ∧
      w.insertNew callback delay interval now now' addr = w.link callback delay interval now addr) := by
  unfold insertNew NewTop link
  cases first : w.timers.first? with
  | none => exact Or.inl ⟨by simp, rfl⟩
  | some e =>
    by_cases earlier : wrap64 (now + delay) < e.time
    · exact Or.inl ⟨by simpa using earlier, by simp [earlier]⟩
    · exact Or.inr ⟨by simpa using earlier, by simp [earlier]⟩

theorem canAllocate_fresh {addr b : Nat} (free : w.canAllocate addr = true) (within : b < w.blocks)
    (live : w.heap b = some c) : c.addr ≠ addr := by
  have fresh := (of_decide_eq_true free).2 b within
  simpa [live] using fresh

end World

/-- The part of the invariant that is about ownership: every live timer is
either queued or among the detached timers of the batch, never both, the index
lists queued timers only, and every allocation is live or deleted. -/
structure Owned (detached : List TimerPtr) (w : World) : Prop where
  next : w.nextSeq = (w.blocks + 1) % sequenceBound
  live : ∀ b c, w.heap b = some c → b < w.blocks ∧ c.timer.sequence = (b + 1) % sequenceBound
  addr : ∀ b b' c c', w.heap b = some c → w.heap b' = some c' → c.addr = c'.addr → b = b'
  entry : ∀ e ∈ w.timers, ∃ c, w.Points e.timer c ∧ c.timer.expiration = e.time
  active : ∀ s t, w.active s = some t → ∃ c, w.Points t c ∧ c.timer.sequence = s ∧
    ⟨c.timer.expiration, t⟩ ∈ w.timers
  batch : ∀ t ∈ detached, (∃ c, w.Points t c) ∧ ∀ e ∈ w.timers, e.timer ≠ t
  nodup : detached.Nodup
  owner : ∀ b c, w.heap b = some c →
    ⟨c.timer.expiration, ⟨c.addr, b⟩⟩ ∈ w.timers ∨ ⟨c.addr, b⟩ ∈ detached
  deleted : ∀ b, b ∈ w.deleted ↔ b < w.blocks ∧ w.heap b = none
  once : w.deleted.Nodup

/-- Nothing but the heap, the two indexes and the counters matters. -/
theorem Owned.congr {detached : List TimerPtr} {w w' : World} (owned : Owned detached w)
    (heap : w'.heap = w.heap) (timers : w'.timers = w.timers) (active : w'.active = w.active)
    (blocks : w'.blocks = w.blocks) (next : w'.nextSeq = w.nextSeq) (deleted : w'.deleted = w.deleted) :
    Owned detached w' := by
  cases w
  cases w'
  dsimp only at heap timers active blocks next deleted
  subst heap timers active blocks next deleted
  exact ⟨owned.next, owned.live, owned.addr, owned.entry, owned.active, owned.batch,
    owned.nodup, owned.owner, owned.deleted, owned.once⟩

theorem Owned.start : Owned [] start where
  next := by decide
  live := by rintro b c ⟨⟩
  addr := by rintro b b' c c' ⟨⟩
  entry := by rintro e ⟨⟩
  active := by rintro s t ⟨⟩
  batch := by rintro t ⟨⟩
  nodup := .nil
  owner := by rintro b c ⟨⟩
  deleted := by simp [Timers.start]
  once := .nil

section

variable {detached : List TimerPtr} {w : World} {t : TimerPtr} {c : Cell}

theorem Owned.ptr_inj (owned : Owned detached w) {p q : TimerPtr} {c d : Cell}
    (live : w.Points p c) (live' : w.Points q d) (same : p.addr = q.addr) : p = q :=
  live'.eq_of_block live (owned.addr _ _ _ _ live.1 live'.1 (live.2.trans (same.trans live'.2.symm)))

/-- An entry under the key of a live pointer is that pointer's. -/
theorem Owned.entry_key (owned : Owned detached w) {e : Entry} {time : Int} (member : e ∈ w.timers)
    (live : w.Points t c) (same : Entry.key e = Entry.key ⟨time, t⟩) : e.timer = t := by
  obtain ⟨d, live', _⟩ := owned.entry e member
  simp only [Entry.key, toLex_inj, Prod.mk.injEq] at same
  exact owned.ptr_inj live' live same.2

/-- A queued timer has one entry. -/
theorem Owned.entry_timer (owned : Owned detached w) {e e' : Entry} (member : e ∈ w.timers)
    (member' : e' ∈ w.timers) (same : e.timer = e'.timer) : e = e' := by
  obtain ⟨time, p⟩ := e
  obtain ⟨time', q⟩ := e'
  obtain ⟨c, live, rfl⟩ := owned.entry _ member
  obtain ⟨d, live', rfl⟩ := owned.entry _ member'
  cases same
  rw [live.unique live']

theorem Owned.not_detached (owned : Owned detached w) {s : Nat} (index : w.active s = some t) :
    t ∉ detached := by
  intro member
  obtain ⟨_, _, _, queued⟩ := owned.active s t index
  exact (owned.batch t member).2 _ queued rfl

end

/-- Every queued timer is found under its sequence number. -/
def Indexed (w : World) : Prop :=
  ∀ e ∈ w.timers, ∀ c, w.Points e.timer c → w.active c.timer.sequence = some e.timer

section

variable {detached : List TimerPtr} {w : World}

/-- As long as no sequence number is used twice, two live timers with one are
the same timer. -/
theorem Owned.sequence_inj (owned : Owned detached w) (room : w.blocks < sequenceBound) {b b' : Nat} {c c' : Cell}
    (live : w.heap b = some c) (live' : w.heap b' = some c')
    (same : c.timer.sequence = c'.timer.sequence) : b = b' := by
  obtain ⟨old, number⟩ := owned.live b c live
  obtain ⟨old', number'⟩ := owned.live b' c' live'
  rw [number, number', Nat.mod_eq_of_lt (by omega), Nat.mod_eq_of_lt (by omega)] at same
  omega

/-- The two indexes agree. -/
theorem Owned.mem_timers_iff (owned : Owned detached w) (indexed : Indexed w) {time : Int} {t : TimerPtr} :
    ⟨time, t⟩ ∈ w.timers ↔
      ∃ c, w.Points t c ∧ time = c.timer.expiration ∧ w.active c.timer.sequence = some t := by
  constructor
  · intro member
    obtain ⟨c, live, rfl⟩ := owned.entry _ member
    exact ⟨c, live, rfl, indexed _ member c live⟩
  · rintro ⟨c, live, rfl, index⟩
    obtain ⟨d, live', _, member⟩ := owned.active _ _ index
    rwa [live.unique live']

end

end CoroNet.Timers
