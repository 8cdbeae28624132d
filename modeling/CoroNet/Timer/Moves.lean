import CoroNet.Timer.OwnershipSteps

namespace CoroNet.Timers

open Function Transition

/-- The second loop of `handleExpired`, one timer of the batch after another. -/
inductive Reinserted (now : Int) : List TimerPtr → World → World → Prop
  | done {w : World} : Reinserted now [] w w
  | again {w w' : World} {t : TimerPtr} {c : Cell} {rest : List TimerPtr} :
      w.Points t c → c.timer.repeat_ = true → c.timer.sequence ∉ w.cancelingSeqs →
      Reinserted now rest (w.relink t c now) w' → Reinserted now (t :: rest) w w'
  | gone {w w' : World} {t : TimerPtr} {c : Cell} {rest : List TimerPtr} :
      w.Points t c → (c.timer.repeat_ = true → c.timer.sequence ∈ w.cancelingSeqs) →
      Reinserted now rest (w.drop t) w' → Reinserted now (t :: rest) w w'

theorem Owned.reinsert {batch : List TimerPtr} {w : World} (owned : Owned batch w) (now : Int) :
    ∃ w', World.reinsert now batch w = .ok w' ∧ Reinserted now batch w w' ∧ Owned [] w' := by
  induction batch generalizing w with
  | nil => exact ⟨w, rfl, .done, owned⟩
  | cons t rest ih =>
    obtain ⟨⟨c, live⟩, _⟩ := owned.batch t (List.mem_cons_self ..)
    by_cases again : c.timer.repeat_ = true ∧ c.timer.sequence ∉ w.cancelingSeqs
    · obtain ⟨w', run, loop, owned'⟩ := ih (owned.relink live now)
      refine ⟨w', ?_, .again live again.1 again.2 loop, owned'⟩
      simp only [World.reinsert, live.deref, bind, Except.bind]
      rw [if_pos (by simpa using again)]
      exact run
    · obtain ⟨w', run, loop, owned'⟩ := ih (owned.drop live)
      refine ⟨w', ?_, .gone live (fun rep => by_contra fun absent => again ⟨rep, absent⟩) loop, owned'⟩
      simp only [World.reinsert, live.deref, live.delete, bind, Except.bind]
      rw [if_neg (by simpa using again)]
      exact run

theorem Owned.entry_blocks {detached : List TimerPtr} {w : World} (owned : Owned detached w) :
    w.timers.elems.Pairwise fun e e' => e.timer.block ≠ e'.timer.block := by
  refine w.timers.sorted.imp_of_mem fun {e e'} member member' lt same => ?_
  obtain ⟨c, live, _⟩ := owned.entry e member
  obtain ⟨c', live', _⟩ := owned.entry e' member'
  obtain rfl := owned.entry_timer member member' (live'.eq_of_block live same)
  exact lt.false

/-- The destructor's loop over the entries of `timers_`. -/
theorem World.deleteAll_ok (entries : List Entry) (w : World)
    (live : ∀ e ∈ entries, ∃ c, w.Points e.timer c)
    (apart : entries.Pairwise fun e e' => e.timer.block ≠ e'.timer.block) :
    deleteAll entries w = .ok { w with
      heap := fun b => if b ∈ entries.map (·.timer.block) then none else w.heap b
      deleted := w.deleted ++ entries.map (·.timer.block) } := by
  induction entries generalizing w with
  | nil => simp [deleteAll]
  | cons e rest ih =>
    obtain ⟨c, here⟩ := live e (List.mem_cons_self ..)
    have different := List.pairwise_cons.mp apart
    have later : ∀ e' ∈ rest, ∃ c, (w.drop e.timer).Points e'.timer c := by
      intro e' member
      obtain ⟨d, other⟩ := live e' (List.mem_cons_of_mem _ member)
      refine ⟨d, ?_, other.2⟩
      simpa only [drop, update_of_ne (different.1 e' member).symm] using other.1
    simp only [deleteAll, here.delete, bind, Except.bind]
    rw [show ({ w with heap := update w.heap e.timer.block none, deleted := w.deleted ++ [e.timer.block] } : World)
      = w.drop e.timer from rfl, ih (w.drop e.timer) later different.2]
    simp only [drop, List.map_cons, List.append_assoc, List.singleton_append, List.mem_cons]
    congr 2
    funext b
    by_cases same : b = e.timer.block
    · simp [same]
    · simp [same]

/-- Where control is agrees with the members that record it. -/
structure Inv (w : World) : Prop where
  fault : w.fault = none
  owned : Owned w.activation.expired w
  calling : w.callingExpired = true ↔ ∃ now expired rest running, w.activation = .batch now expired rest running
  quiet : w.callingExpired = false → w.cancelingSeqs = []
  rest : w.activation.rest <:+ w.activation.expired
  destroyed : w.activation = .destroyed → ∀ b, w.heap b = none

/-- The world after the destructor. -/
def World.destroyed (w : World) : World :=
  { w with
    timers := .empty
    active := fun _ => none
    heap := fun b => if b ∈ w.timers.elems.map (·.timer.block) then none else w.heap b
    deleted := w.deleted ++ w.timers.elems.map (·.timer.block)
    activation := .destroyed }

/-- Everything a step can do from a state that satisfies the invariant; in
particular no step has undefined behaviour. -/
inductive Move (w : World) : Act → World → Prop
  | fire {now time : Int} : w.fd.alarm = some time → w.clock ≤ now → time ≤ now →
      Move w (.fire now) { w with clock := now, fd := { w.fd with alarm := none, pending := true } }
  | insert {a : Act} {callback addr : Nat} {delay interval now now' : Int} :
      (a = .add callback delay now now' addr ∧ interval = 0 ∨
        a = .addPeriodic callback delay now now' addr ∧ interval = delay) →
      w.userCode = true → w.canAllocate addr = true → w.clock ≤ now → now ≤ now' →
      Move w a (w.insertNew callback delay interval now now' addr)
  | ignored {id : TimerId} {now : Int} : w.userCode = true → w.clock ≤ now → id.timer = none →
      Move w (.cancel id now) w
  | missed {id : TimerId} {now : Int} : w.userCode = true → w.clock ≤ now → id.timer ≠ none →
      w.active id.seq = none →
      Move w (.cancel id now)
        (if w.callingExpired then { w with cancelingSeqs := w.cancelingSeqs ++ [id.seq] } else w)
  | removed {id : TimerId} {now : Int} {t : TimerPtr} {c : Cell} : w.userCode = true → w.clock ≤ now →
      id.timer ≠ none → w.active id.seq = some t → w.Points t c →
      Move w (.cancel id now) (if w.IsTop t then (w.unlink id.seq t c).rearm now else w.unlink id.seq t c)
  | expire {completed : Bool} {now : Int} {active : Nat → Option TimerPtr} : w.activation = .idle →
      w.clock ≤ now → (completed = true → w.fd.pending = true) →
      w.IndexLeft now active →
      Move w (.expire completed now) ((w.consume completed).popped now active)
  | call {now : Int} {expired rest : List TimerPtr} {t : TimerPtr} {c : Cell} :
      w.activation = .batch now expired (t :: rest) false → w.Points t c →
      Move w .call { w with activation := .batch now expired rest true, started := w.started ++ [t.block] }
  | ret {threw : Bool} {now : Int} {expired rest : List TimerPtr} :
      w.activation = .batch now expired rest true →
      Move w (.ret threw) { w with activation := .batch now expired rest false }
  | finish {now now' : Int} {expired : List TimerPtr} {w' : World} :
      w.activation = .batch now expired [] false → w.clock ≤ now' →
      Reinserted now expired { w with callingExpired := false } w' → Owned [] w' →
      Move w (.finish now') (World.rearm { w' with cancelingSeqs := [], activation := .idle } now')
  | destroy : w.activation = .idle → Move w .destroy w.destroyed

section

variable {w w' : World} {now now' : Int} {expired rest : List TimerPtr}

theorem cancel_move {id : TimerId} (inv : Inv w) (user : w.userCode = true) (late : w.clock ≤ now) :
    Move w (.cancel id now) (w.outcome (w.cancel id now)) := by
  by_cases empty : id.timer = none
  · rw [World.cancel_invalid empty]
    exact .ignored user late empty
  · cases index : w.active id.seq with
    | none =>
      rw [World.cancel_missing empty index]
      exact .missed user late empty index
    | some t =>
      obtain ⟨c, live, _⟩ := inv.owned.active _ _ index
      rw [World.cancel_found empty index live]
      exact .removed user late empty index live

theorem expire_move {completed : Bool} (inv : Inv w) (idle : w.activation = .idle) (late : w.clock ≤ now)
    (pending : completed = true → w.fd.pending = true) :
    Move w (.expire completed now) ((w.consume completed).outcome ((w.consume completed).expire now)) := by
  have owned := inv.owned
  rw [idle] at owned
  obtain ⟨active, run, left⟩ := Owned.expire_ok (w := w.consume completed)
    (owned.congr rfl rfl rfl rfl rfl rfl) now
  rw [run]
  exact .expire idle late pending left

theorem call_move {t : TimerPtr} (inv : Inv w) (control : w.activation = .batch now expired (t :: rest) false) :
    Move w .call (w.outcome (w.call now expired t rest)) := by
  have member : t ∈ w.activation.expired := inv.rest.subset (by simp [control, Activation.rest])
  obtain ⟨⟨c, live⟩, _⟩ := inv.owned.batch t member
  have result := Move.call control live
  simpa [World.call, live.deref, bind, Except.bind, World.outcome] using result

theorem finish_move (inv : Inv w) (control : w.activation = .batch now expired [] false) (late : w.clock ≤ now') :
    Move w (.finish now') (w.outcome (w.finish now expired now')) := by
  have owned := inv.owned
  rw [control] at owned
  obtain ⟨kept, run, loop, owned'⟩ := Owned.reinsert (w := { w with callingExpired := false })
    (owned.congr rfl rfl rfl rfl rfl rfl) now
  have result := Move.finish control late loop owned'
  have run' : World.reinsert now expired { w with callingExpired := false } = .ok kept := run
  simpa [World.finish, run', bind, Except.bind, World.outcome] using result

theorem destroy_move (inv : Inv w) (idle : w.activation = .idle) : Move w .destroy (w.outcome w.destroy) := by
  have owned := inv.owned
  rw [idle] at owned
  rw [World.destroy, World.deleteAll_ok _ w (fun e member => (owned.entry e member).imp fun _ h => h.1)
    owned.entry_blocks]
  exact .destroy idle

end

theorem step_move {w w' : World} {a : Act} (inv : Inv w) (move : step w a = some w') : Move w a w' := by
  unfold step at move
  rw [if_neg (by simp [inv.fault])] at move
  cases a with
  | fire now =>
    cases alarm : w.fd.alarm with
    | none => simp [alarm] at move
    | some time =>
      simp only [alarm, Option.ite_none_right_eq_some, Option.some.injEq] at move
      obtain ⟨⟨late, due⟩, rfl⟩ := move
      exact .fire alarm late due
  | add callback delay now now' addr =>
    simp only [Option.ite_none_right_eq_some, Option.some.injEq] at move
    obtain ⟨⟨user, free, late, later⟩, rfl⟩ := move
    exact .insert (Or.inl ⟨rfl, rfl⟩) user free late later
  | addPeriodic callback interval now now' addr =>
    simp only [Option.ite_none_right_eq_some, Option.some.injEq] at move
    obtain ⟨⟨user, free, late, later⟩, rfl⟩ := move
    exact .insert (Or.inr ⟨rfl, rfl⟩) user free late later
  | cancel id now =>
    simp only [Option.ite_none_right_eq_some, Option.some.injEq] at move
    obtain ⟨⟨user, late⟩, rfl⟩ := move
    exact cancel_move inv user late
  | expire completed now =>
    cases idle : w.activation with
    | batch | destroyed => simp [idle] at move
    | idle =>
      simp only [idle, Option.ite_none_right_eq_some, Option.some.injEq] at move
      obtain ⟨⟨late, pending⟩, rfl⟩ := move
      exact expire_move inv idle late pending
  | call =>
    cases control : w.activation with
    | idle | destroyed => simp [control] at move
    | batch now expired rest running =>
      cases running <;> cases rest <;> simp only [control, reduceCtorEq, Option.some.injEq] at move
      subst move
      exact call_move inv control
  | ret threw =>
    cases control : w.activation with
    | idle | destroyed => simp [control] at move
    | batch now expired rest running =>
      cases running <;> simp only [control, reduceCtorEq, Option.some.injEq] at move
      subst move
      exact .ret control
  | finish now' =>
    cases control : w.activation with
    | idle | destroyed => simp [control] at move
    | batch now expired rest running =>
      cases running <;> cases rest <;>
        simp only [control, reduceCtorEq, Option.ite_none_right_eq_some, Option.some.injEq] at move
      obtain ⟨late, rfl⟩ := move
      exact finish_move inv control late
  | destroy =>
    cases idle : w.activation with
    | batch | destroyed => simp [idle] at move
    | idle =>
      simp only [idle, Option.some.injEq] at move
      subst move
      exact destroy_move inv idle

/-- Everything a cancel can do. -/
theorem cancel_cases {w w' : World} {id : TimerId} {now : Int} (inv : Inv w)
    (cancel : step w (.cancel id now) = some w') :
    (id.timer = none ∧ w' = w) ∨
    (id.timer ≠ none ∧ w.active id.seq = none ∧
      w' = if w.callingExpired then { w with cancelingSeqs := w.cancelingSeqs ++ [id.seq] } else w) ∨
    (id.timer ≠ none ∧ ∃ t c, w.active id.seq = some t ∧ w.Points t c ∧
      w' = if w.IsTop t then (w.unlink id.seq t c).rearm now else w.unlink id.seq t c) := by
  have move := step_move inv cancel
  cases move with
  | insert kind => rcases kind with ⟨other, _⟩ | ⟨other, _⟩ <;> cases other
  | ignored _ _ empty => exact Or.inl ⟨empty, rfl⟩
  | missed _ _ valid missing => exact Or.inr (Or.inl ⟨valid, missing, rfl⟩)
  | removed _ _ valid index live => exact Or.inr (Or.inr ⟨valid, _, _, index, live, rfl⟩)

end CoroNet.Timers
