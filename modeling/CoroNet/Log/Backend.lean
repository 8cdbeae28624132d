import CoroNet.Log.Ledger

namespace CoroNet.AsyncLogger

open Function Transition

variable {w : World}

theorem handed_append (output : List Chunk) (chunk : Chunk) :
    handed (output ++ [chunk]) = handed output ++ handed [chunk] := List.filterMap_append

theorem reported_append (output : List Chunk) (chunk : Chunk) :
    reported (output ++ [chunk]) = reported output + reported [chunk] := by
  simp [reported]

/-- Going from one stage of the loop to another without touching a buffer. -/
theorem Inv.goto (inv : Inv w) {backend : Backend} (early : w.late = false)
    (nothing : w.unwritten = []) (spares : World.Spares { w with backend := backend })
    (still : World.late { w with backend := backend } = false)
    (nothing' : World.unwritten { w with backend := backend } = [])
    (ending : backend = .final → w.running = false) : Inv { w with backend := backend } := by
  obtain ⟨l, account⟩ := inv.account
  have flags := inv.flags.goto early still rfl rfl rfl ending
  refine ⟨inv.fault, flags, spares, inv.next, fun _ => inv.taken early, fun _ => inv.current early, ?_, ?_,
    inv.short, ?_⟩
  · exact fun late => absurd (still.symm.trans late) Bool.false_ne_true
  · exact fun out => absurd out (World.not_exited still)
  · have writing := account.idle nothing
    refine ⟨{ l with settled := l.settled ++ l.erased.map (Prod.mk false), erased := [] }, ?_, ?_, ?_, ?_,
      fun _ => rfl, ?_, account.current⟩
    · have paired : (l.erased.map (Prod.mk false)).map Prod.snd = l.erased := by simp [Function.comp_def]
      have history := account.history
      simp only [Ledger.lines, writing] at history ⊢
      rw [history, List.map_append, paired]
      simp
    · have none_written : (l.erased.map (Prod.mk false)).filter Prod.fst = [] := by
        simp [List.filter_eq_nil_iff]
      rw [account.written, List.filter_append, none_written, List.append_nil]
    · have all : (l.erased.map (Prod.mk false)).filter (fun c => !c.1) = l.erased.map (Prod.mk false) := by
        simp [List.filter_eq_self]
      have count := account.noted
      rw [List.filter_append, all, List.length_append, List.length_map]
      exact count
    · rw [nothing', writing]
      exact .nil
    · have queued := account.queued_buffers early
      unfold World.queued
      unfold World.late at still
      dsimp only at still ⊢
      cases backend <;> simp_all

/-- The swap gives its second spare away when the front-ends have used up `next_`. -/
theorem World.swap_next (w : World) :
    (w.next = none ∧ w.swap.next = w.newBuf2 ∧ w.swap.newBuf2 = none) ∨
      (w.next ≠ none ∧ w.swap.next = w.next ∧ w.swap.newBuf2 = w.newBuf2) := by
  unfold World.swap
  cases next : w.next with
  | none => exact Or.inl ⟨rfl, rfl, rfl⟩
  | some b => exact Or.inr ⟨Option.some_ne_none b, rfl, rfl⟩

/-- The swap: what was queued and current becomes the back-end's round. -/
theorem Inv.swap (inv : Inv w) (waits : w.backend = .lock ∨ w.backend = .waiting) : Inv w.swap := by
  obtain ⟨l, account⟩ := inv.account
  have early : w.late = false := by
    rcases waits with at_lock | at_wait
    · rw [World.late, at_lock]
    · rw [World.late, at_wait]
  have nothing : w.unwritten = [] := by
    rcases waits with at_lock | at_wait
    · rw [World.unwritten, at_lock]
    · rw [World.unwritten, at_wait]
  obtain ⟨spare1, spare2, emptied⟩ : Spare w.newBuf1 ∧ Spare w.newBuf2 ∧ w.buffersToWrite = [] := by
    have spares := inv.spares
    rcases waits with at_lock | at_wait
    · rwa [World.Spares, at_lock] at spares
    · rwa [World.Spares, at_wait] at spares
  have holds : Holds w.current l.current := account.current.resolve_left fun gone => inv.current early gone.1
  have round := List.rel_append (account.queued_buffers early) (List.Forall₂.cons holds .nil)
  have not_out : w.backend ≠ .exited := by
    intro out
    rcases waits with at_lock | at_wait
    · cases at_lock.symm.trans out
    · cases at_wait.symm.trans out
  have erased : l.erased = [] := account.erased fun rest at_write => by
    rcases waits with at_lock | at_wait
    · cases at_lock.symm.trans at_write
    · cases at_wait.symm.trans at_write
  refine ⟨inv.fault, ⟨inv.flags.ready, inv.flags.storing, ?_, ?_⟩, ?_, ?_, ?_, ?_, ?_, ?_, inv.short, ?_⟩
  · rintro (final | late)
    · cases final
    · cases late
  · exact fun stopped => absurd (inv.flags.joined stopped) not_out
  · refine ⟨rfl, forall₂_ne_none round, ?_⟩
    have size : w.swap.buffersToWrite.length = w.buffers.length + 1 := List.length_append
    rcases w.swap_next with ⟨gone, _, spent⟩ | ⟨_, _, kept⟩
    · have some_queued := List.length_pos_iff.mpr (inv.taken early gone)
      exact Or.inr ⟨spent, by omega⟩
    · exact Or.inl ⟨by rwa [kept], by omega⟩
  · intro some_next
    rcases w.swap_next with ⟨_, filled, _⟩ | ⟨there, kept, _⟩
    · rwa [filled]
    · rw [kept]
      exact inv.next there
  · intro _ none_next
    rcases w.swap_next with ⟨_, filled, _⟩ | ⟨there, kept, _⟩
    · exact absurd (filled.symm.trans none_next) spare2.holds.ne_none
    · exact absurd (kept.symm.trans none_next) there
  · exact fun _ => spare1.holds.ne_none
  · exact fun late => absurd late Bool.false_ne_true
  · exact fun out => Backend.noConfusion out
  · refine ⟨{ l with writing := l.queued ++ [l.current], queued := [], current := [] }, ?_, account.written,
      account.noted, round, fun _ => erased, ?_, Or.inr spare1.holds⟩
    · have history := account.history
      simp only [Ledger.lines, account.idle nothing, erased] at history ⊢
      exact history.trans (by simp)
    · show List.Forall₂ Holds w.buffersToWrite []
      rw [emptied]
      exact .nil

/-- What the stages between the swap and the recycling leave alone. -/
theorem Inv.round (inv : Inv w) {backend : Backend} {buffersToWrite : List BufferPtr} {output : List Chunk}
    {l : Ledger} (early : w.late = false)
    (still : World.late { w with backend := backend } = false)
    (not_final : backend ≠ .final)
    (spares : World.Spares { w with backend := backend, buffersToWrite := buffersToWrite, output := output })
    (account : Accounts { w with backend := backend, buffersToWrite := buffersToWrite, output := output } l) :
    Inv { w with backend := backend, buffersToWrite := buffersToWrite, output := output } := by
  have flags : Flags { w with backend := backend, buffersToWrite := buffersToWrite, output := output } :=
    inv.flags.goto early still rfl rfl rfl fun final => absurd final not_final
  refine ⟨inv.fault, flags, spares, inv.next, fun _ => inv.taken early, fun _ => inv.current early, ?_, ?_,
    inv.short, l, account⟩
  · exact fun late => absurd (still.symm.trans late) Bool.false_ne_true
  · exact fun out => absurd out (World.not_exited still)

/-- Over the limit all but two buffers are erased, and their number is written. -/
theorem Inv.limit (inv : Inv w) (at_limit : w.backend = .limit) : Inv w.limit := by
  obtain ⟨l, account⟩ := inv.account
  have early : w.late = false := by rw [World.late, at_limit]
  have erased : l.erased = [] := account.erased fun rest at_write => by cases at_limit.symm.trans at_write
  have writing : List.Forall₂ Holds w.buffersToWrite l.writing := by
    have writing := account.writing
    rwa [World.unwritten, at_limit] at writing
  have queued := account.queued_buffers early
  obtain ⟨spent, alive, enough⟩ : w.newBuf1 = none ∧ (∀ p ∈ w.buffersToWrite, p ≠ none) ∧
      (Spare w.newBuf2 ∧ 1 ≤ w.buffersToWrite.length ∨ w.newBuf2 = none ∧ 2 ≤ w.buffersToWrite.length) := by
    have spares := inv.spares
    rwa [World.Spares, at_limit] at spares
  have size := writing.length_eq
  unfold World.limit
  by_cases crowded : w.buffersToWrite.length > 25
  · rw [if_pos crowded]
    refine inv.round (l := { l with writing := l.writing.take 2, erased := l.writing.drop 2 }) early rfl
      (Backend.noConfusion ·) ?_ ?_
    · refine ⟨spent, fun p member => alive p (List.mem_of_mem_take member), ?_⟩
      have two : (w.buffersToWrite.take 2).length = 2 := by
        rw [List.length_take]
        omega
      rcases enough with ⟨spare, _⟩ | ⟨gone, _⟩
      · exact Or.inl ⟨spare, by dsimp only; omega⟩
      · exact Or.inr ⟨gone, by dsimp only; omega⟩
    · refine ⟨?_, ?_, ?_, List.forall₂_take 2 writing, fun other => absurd rfl (other _), queued, account.current⟩
      · have history := account.history
        have whole : (l.writing.take 2).flatten ++ (l.writing.drop 2).flatten = l.writing.flatten := by
          rw [← List.flatten_append, List.take_append_drop]
        simp only [Ledger.lines, erased, List.flatten_nil, List.append_nil] at history ⊢
        rw [history, ← whole]
        simp
      · have none_handed : handed [.dropped (w.buffersToWrite.length - 2)] = [] := rfl
        rw [handed_append, none_handed, List.append_nil]
        exact account.written
      · have count := account.noted
        have noted : reported [.dropped (w.buffersToWrite.length - 2)] = w.buffersToWrite.length - 2 := by
          simp [reported]
        rw [erased, List.length_nil] at count
        rw [reported_append, noted, count, List.length_drop]
        dsimp only
        omega
  · rw [if_neg crowded]
    refine inv.round (l := l) early rfl (Backend.noConfusion ·) ⟨spent, alive, enough⟩ ?_
    exact ⟨account.history, account.written, account.noted, writing, fun other => absurd rfl (other _), queued,
      account.current⟩

/-- A buffer handed over moves from the round to what is settled. -/
theorem Ledger.settle {l : Ledger} {cell : List Line} {rest : List (List Line)} (head : l.writing = cell :: rest) :
    Ledger.lines { l with settled := l.settled ++ [(true, cell)], writing := rest } = l.lines := by
  simp [Ledger.lines, head]

theorem handed_settle {output : List Chunk} {settled : List (Bool × List Line)} {b : LargeBuffer} {cell : List Line}
    (before : handed output = (settled.filter Prod.fst).map fun c => c.2.flatten) (data : b.data = cell.flatten) :
    handed (output ++ [.lines b.data]) =
      ((settled ++ [(true, cell)]).filter Prod.fst).map fun c => c.2.flatten := by
  have one : handed [.lines b.data] = [b.data] := rfl
  rw [handed_append, before, one, List.filter_append, List.map_append, data]
  simp

theorem reported_settle {output : List Chunk} {settled : List (Bool × List Line)} {data : List UInt8}
    {cell : List Line} {n : Nat} (before : reported output = (settled.filter fun c => !c.1).length + n) :
    reported (output ++ [.lines data]) = ((settled ++ [(true, cell)]).filter fun c => !c.1).length + n := by
  have none_dropped : reported [.lines data] = 0 := rfl
  rw [reported_append, before, none_dropped, List.filter_append]
  simp

theorem Inv.write {rest : List BufferPtr} (inv : Inv w) (at_write : w.backend = .writing rest) :
    ∃ next, w.write rest = .ok next ∧ Inv next := by
  obtain ⟨l, account⟩ := inv.account
  have early : w.late = false := by rw [World.late, at_write]
  have unwritten : w.unwritten = rest := by rw [World.unwritten, at_write]
  have spares := inv.spares
  rw [World.Spares, at_write] at spares
  cases rest with
  | nil => exact ⟨_, rfl, inv.goto early unwritten spares rfl rfl (Backend.noConfusion ·)⟩
  | cons p rest =>
    have writing := account.writing
    rw [unwritten] at writing
    obtain ⟨cell, cells, holds, others, head⟩ := List.forall₂_cons_left_iff.mp writing
    obtain ⟨b, rfl, data⟩ := holds
    refine ⟨_, rfl, inv.round (l := { l with settled := l.settled ++ [(true, cell)], writing := cells }) early rfl
      (Backend.noConfusion ·) spares ?_⟩
    refine ⟨?_, handed_settle account.written data, reported_settle account.noted, others,
      fun other => absurd rfl (other _), account.queued_buffers early, account.current⟩
    rw [Ledger.settle head]
    exact account.history

/-- The last buffer of a round is emptied and becomes a spare. -/
theorem World.takeBack_spare {spare : List BufferPtr} (alive : ∀ p ∈ spare, p ≠ none) (some_left : spare ≠ []) :
    ∃ b, takeBack spare = .ok (some b, spare.dropLast) ∧ b.data = [] := by
  obtain ⟨b, last⟩ := Option.ne_none_iff_exists'.mp (alive _ (List.getLast_mem some_left))
  refine ⟨b.reset, ?_, rfl⟩
  rw [takeBack, List.getLast?_eq_getLast_of_ne_nil some_left, last]

/-- Both spares are back after a round. -/
theorem World.recycle_ok (spent : w.newBuf1 = none) (alive : ∀ p ∈ w.buffersToWrite, p ≠ none)
    (enough : Spare w.newBuf2 ∧ 1 ≤ w.buffersToWrite.length ∨ w.newBuf2 = none ∧ 2 ≤ w.buffersToWrite.length) :
    ∃ newBuf1 newBuf2, Spare newBuf1 ∧ Spare newBuf2 ∧ w.recycle =
      .ok { w with newBuf1 := newBuf1, newBuf2 := newBuf2, buffersToWrite := [], backend := .top } := by
  obtain ⟨spare, cut, alive, size⟩ : ∃ spare,
      (if w.buffersToWrite.length > 2 then w.buffersToWrite.take 2 else w.buffersToWrite) = spare ∧
        (∀ p ∈ spare, p ≠ none) ∧ spare.length = min 2 w.buffersToWrite.length := by
    refine ⟨_, rfl, ?_, ?_⟩
    · split
      · exact fun p member => alive p (List.mem_of_mem_take member)
      · exact alive
    · split
      · rw [List.length_take]
      · omega
  have some_left : spare ≠ [] := List.ne_nil_of_length_pos (by omega)
  obtain ⟨b, first, empty⟩ := World.takeBack_spare alive some_left
  rcases enough with ⟨⟨c, there, empty'⟩, _⟩ | ⟨gone, two⟩
  · refine ⟨some b, some c, ⟨b, rfl, empty⟩, ⟨c, rfl, empty'⟩, ?_⟩
    simp [recycle, refill, cut, spent, first, there, bind, Except.bind]
  · have another : spare.dropLast ≠ [] := by
      refine List.ne_nil_of_length_pos ?_
      rw [List.length_dropLast]
      omega
    obtain ⟨c, second, empty'⟩ := World.takeBack_spare
      (fun p member => alive p (List.dropLast_subset _ member)) another
    refine ⟨some b, some c, ⟨b, rfl, empty⟩, ⟨c, rfl, empty'⟩, ?_⟩
    simp [recycle, refill, cut, spent, first, gone, another, second, bind, Except.bind]

theorem Inv.recycle (inv : Inv w) (at_recycle : w.backend = .recycle) :
    ∃ next, w.recycle = .ok next ∧ Inv next := by
  obtain ⟨l, account⟩ := inv.account
  have early : w.late = false := by rw [World.late, at_recycle]
  obtain ⟨spent, alive, enough⟩ : w.newBuf1 = none ∧ (∀ p ∈ w.buffersToWrite, p ≠ none) ∧
      (Spare w.newBuf2 ∧ 1 ≤ w.buffersToWrite.length ∨ w.newBuf2 = none ∧ 2 ≤ w.buffersToWrite.length) := by
    have spares := inv.spares
    rwa [World.Spares, at_recycle] at spares
  obtain ⟨newBuf1, newBuf2, spare1, spare2, done⟩ := World.recycle_ok spent alive enough
  have kept : w.unwritten = [] := by rw [World.unwritten, at_recycle]
  refine ⟨_, done, inv.fault, ⟨inv.flags.ready, inv.flags.storing, ?_, ?_⟩, ⟨spare1, spare2, rfl⟩, inv.next,
    fun _ => inv.taken early, fun _ => inv.current early, fun late => absurd late Bool.false_ne_true,
    Backend.noConfusion, inv.short, l, account.history, account.written, account.noted, ?_, ?_,
    account.queued_buffers early, account.current⟩
  · rintro (final | late)
    · cases final
    · cases late
  · intro stopped
    cases at_recycle.symm.trans (inv.flags.joined stopped)
  · rw [account.idle kept]
    exact .nil
  · exact fun _ => account.erased fun rest at_write => by cases at_recycle.symm.trans at_write

theorem World.final_eq {b : LargeBuffer} (here : w.current = some b) :
    w.final = if 0 < b.length then
        { w with
          buffers := w.buffers ++ [w.current]
          current := none
          backend := .flushing (w.buffers ++ [w.current]) }
      else { w with backend := .flushing w.buffers } := by
  simp only [World.final, here]

/-- The last locked section takes over what is left, unless nothing was
written into `current_`. -/
theorem Inv.final (inv : Inv w) (at_final : w.backend = .final) : Inv w.final := by
  obtain ⟨l, account⟩ := inv.account
  have early : w.late = false := by rw [World.late, at_final]
  have nothing : w.unwritten = [] := by rw [World.unwritten, at_final]
  have stopping := inv.flags.ending (Or.inl at_final)
  have not_out : w.backend ≠ .exited := fun out => by cases at_final.symm.trans out
  have erased : l.erased = [] := account.erased fun rest at_write => by cases at_final.symm.trans at_write
  have queued := account.queued_buffers early
  have history := account.history
  simp only [Ledger.lines, account.idle nothing, erased] at history
  obtain ⟨b, here⟩ := Option.ne_none_iff_exists'.mp (inv.current early)
  have holds : Holds w.current l.current := account.current.resolve_left fun gone => inv.current early gone.1
  rw [World.final_eq here]
  by_cases used : 0 < b.length
  · rw [if_pos used]
    refine ⟨inv.fault, ⟨inv.flags.ready, inv.flags.storing, fun _ => stopping, ?_⟩, trivial, inv.next, ?_, ?_, ?_,
      Backend.noConfusion, inv.short, { l with writing := l.queued ++ [l.current], queued := [], current := [] }, ?_,
      account.written, account.noted, ?_, fun _ => erased, .nil, Or.inl ⟨rfl, rfl⟩⟩
    · exact fun stopped => absurd (inv.flags.joined stopped) not_out
    · exact fun still => absurd still.symm Bool.false_ne_true
    · exact fun still => absurd still.symm Bool.false_ne_true
    · exact fun _ b gone => absurd gone.symm (Option.some_ne_none b)
    · simp only [Ledger.lines, erased]
      exact history.trans (by simp)
    · exact List.rel_append queued (List.Forall₂.cons holds .nil)
  · rw [if_neg used]
    have empty : b.data = [] := List.length_eq_zero_iff.mp (by unfold FixedBuffer.length at used; omega)
    refine ⟨inv.fault, ⟨inv.flags.ready, inv.flags.storing, fun _ => stopping, ?_⟩, trivial, inv.next, ?_, ?_, ?_,
      Backend.noConfusion, inv.short, { l with writing := l.queued, queued := [] }, ?_,
      account.written, account.noted, queued, fun _ => erased, .nil, account.current⟩
    · exact fun stopped => absurd (inv.flags.joined stopped) not_out
    · exact fun still => absurd still.symm Bool.false_ne_true
    · exact fun still => absurd still.symm Bool.false_ne_true
    · intro _ b' same
      cases here.symm.trans same
      exact empty
    · simp only [Ledger.lines, erased]
      exact history.trans (by simp)

theorem Inv.flush {rest : List BufferPtr} (inv : Inv w) (at_flush : w.backend = .flushing rest) : Inv (w.flush rest) := by
  obtain ⟨l, account⟩ := inv.account
  have late : w.late = true := by rw [World.late, at_flush]
  have stopping := inv.flags.ending (Or.inr late)
  have not_out : w.backend ≠ .exited := fun out => by cases at_flush.symm.trans out
  have queued : l.queued = [] := by
    have queued := account.queued
    rw [World.queued, at_flush] at queued
    exact List.forall₂_nil_left_iff.mp queued
  have writing := account.writing
  rw [World.unwritten, at_flush] at writing
  cases rest with
  | nil =>
    have idle := List.forall₂_nil_left_iff.mp writing
    refine ⟨inv.fault, ⟨inv.flags.ready, inv.flags.storing, fun _ => stopping, fun _ => rfl⟩, trivial, inv.next, ?_,
      ?_, fun _ => inv.left late, fun _ => rfl, inv.short, l, account.history, account.written, account.noted, ?_,
      ?_, ?_, account.current⟩
    · exact fun still => absurd still.symm Bool.false_ne_true
    · exact fun still => absurd still.symm Bool.false_ne_true
    · rw [idle]
      exact .nil
    · exact fun _ => account.erased fun rest at_write => by cases at_flush.symm.trans at_write
    · rw [queued]
      exact .nil
  | cons p rest =>
    obtain ⟨cell, cells, holds, others, head⟩ := List.forall₂_cons_left_iff.mp writing
    obtain ⟨b, rfl, data⟩ := holds
    refine ⟨inv.fault, ⟨inv.flags.ready, inv.flags.storing, fun _ => stopping, ?_⟩, trivial, inv.next, ?_, ?_,
      fun _ => inv.left late, Backend.noConfusion, inv.short,
      { l with settled := l.settled ++ [(true, cell)], writing := cells }, ?_, handed_settle account.written data,
      reported_settle account.noted, others, ?_, ?_, account.current⟩
    · exact fun stopped => absurd (inv.flags.joined stopped) not_out
    · exact fun still => absurd still.symm Bool.false_ne_true
    · exact fun still => absurd still.symm Bool.false_ne_true
    · rw [Ledger.settle head]
      exact account.history
    · exact fun _ => account.erased fun rest at_write => by cases at_flush.symm.trans at_write
    · rw [queued]
      exact .nil

end CoroNet.AsyncLogger
