import CoroNet.Server.Shutdown

namespace CoroNet.TcpServer.Shutdown

open Function Transition

variable {n : Nat} {w w' : World n} {a : Act n}

/-- The destructor of a connection has done its work. -/
def World.Freed (w : World n) (k : Nat) : Prop :=
  ∀ conn, w.conns[k]? = some conn → k ∈ w.destroyed ∧ conn.fd ∈ w.closed ∧
    (conn.buffer.hasFixedSlot = true → (conn.sched, conn.buffer.bufIndex) ∈ w.released)

/-- What destructors of connections leave alone. -/
structure Kept (w w' : World n) : Prop where
  scheds : w'.scheds = w.scheds
  conns : w'.conns = w.conns
  wait : w'.wait = w.wait
  gone : w'.gone = w.gone

theorem Kept.trans {v : World n} (first : Kept w v) (second : Kept v w') : Kept w w' :=
  ⟨second.scheds.trans first.scheds, second.conns.trans first.conns, second.wait.trans first.wait,
    second.gone.trans first.gone⟩

theorem World.destruct_kept (w : World n) (k : Nat) : Kept w (w.destruct k) ∧ (w.destruct k).frames = w.frames := by
  unfold World.destruct
  split <;> exact ⟨⟨rfl, rfl, rfl, rfl⟩, rfl⟩

theorem World.destruct_freed {k : Nat} (nonneg : ∀ conn ∈ w.conns, 0 ≤ conn.fd) (made : k < w.conns.length) :
    (w.destruct k).destroyed = w.destroyed ++ [k] ∧ (w.destruct k).Freed k ∧
      ∀ j, w.Freed j → (w.destruct k).Freed j := by
  have here := List.getElem?_eq_getElem made
  have good := nonneg _ (List.getElem_mem made)
  unfold World.destruct
  rw [here]
  refine ⟨rfl, ?_, ?_⟩
  · intro conn same
    cases Option.some.inj (here.symm.trans same)
    exact ⟨by simp, by simp [good], fun has => by simp [has]⟩
  · intro j freed conn same
    obtain ⟨gone, closed, released⟩ := freed conn same
    refine ⟨List.mem_append_left _ gone, ?_, fun has => ?_⟩
    · simp [good, closed]
    · dsimp only
      split
      · exact List.mem_append_left _ (released has)
      · exact released has

/-- The destructors of several connections. -/
theorem World.foldl_destruct (dead : List Nat) (nonneg : ∀ conn ∈ w.conns, 0 ≤ conn.fd)
    (made : ∀ k ∈ dead, k < w.conns.length) (freed : ∀ k ∈ w.destroyed, w.Freed k) :
    Kept w (dead.foldl destruct w) ∧ (dead.foldl destruct w).frames = w.frames ∧
      (dead.foldl destruct w).destroyed = w.destroyed ++ dead ∧
      ∀ k ∈ (dead.foldl destruct w).destroyed, (dead.foldl destruct w).Freed k := by
  induction dead generalizing w with
  | nil => exact ⟨⟨rfl, rfl, rfl, rfl⟩, rfl, (List.append_nil _).symm, freed⟩
  | cons k rest ih =>
    obtain ⟨kept, frames⟩ := w.destruct_kept k
    obtain ⟨more, now, still⟩ := World.destruct_freed nonneg (made k List.mem_cons_self)
    have freed' : ∀ j ∈ (w.destruct k).destroyed, (w.destruct k).Freed j := by
      intro j gone
      rw [more] at gone
      rcases List.mem_append.mp gone with before | this
      · exact still j (freed j before)
      · exact List.mem_singleton.mp this ▸ now
    obtain ⟨later, frames', all, every⟩ := ih (w := w.destruct k) (kept.conns ▸ nonneg)
      (fun j member => kept.conns ▸ made j (List.mem_cons_of_mem _ member)) freed'
    refine ⟨kept.trans later, frames'.trans frames, ?_, every⟩
    rw [List.foldl_cons, all, more, List.append_assoc]
    rfl

/-- A connection exists as long as some frame has a pointer to it. -/
structure Books (w : World n) : Prop where
  nonneg : ∀ conn ∈ w.conns, 0 ≤ conn.fd
  freed : ∀ k ∈ w.destroyed, k < w.conns.length ∧ w.Freed k
  alive : ∀ f ∈ w.frames, f.conn < w.conns.length ∧ f.conn ∉ w.destroyed
  owned : ∀ k < w.conns.length, k ∈ w.destroyed ∨ ∃ f ∈ w.frames, f.conn = k

theorem Books.congr (books : Books w) (conns : w'.conns = w.conns) (frames : w'.frames = w.frames)
    (destroyed : w'.destroyed = w.destroyed) (closed : w'.closed = w.closed) (released : w'.released = w.released) :
    Books w' := by
  refine ⟨conns ▸ books.nonneg, ?_, ?_, ?_⟩
  · unfold World.Freed
    rw [conns, destroyed, closed, released]
    exact books.freed
  · rw [conns, frames, destroyed]
    exact books.alive
  · rw [conns, frames, destroyed]
    exact books.owned

theorem Books.set (books : Books w) {i : Fin n} {sched : Scheduler.World} : Books (w.set i sched) :=
  books.congr rfl rfl rfl rfl rfl

/-- Another frame gets a pointer to a connection that exists. -/
theorem Books.hold (books : Books w) {f : Frame n} (made : f.conn < w.conns.length) (alive : f.conn ∉ w.destroyed)
    (conns : w'.conns = w.conns) (frames : w'.frames = w.frames ++ [f]) (destroyed : w'.destroyed = w.destroyed)
    (closed : w'.closed = w.closed) (released : w'.released = w.released) : Books w' := by
  refine ⟨conns ▸ books.nonneg, ?_, ?_, ?_⟩
  · unfold World.Freed
    rw [conns, destroyed, closed, released]
    exact books.freed
  · rw [conns, frames, destroyed]
    intro g member
    rcases List.mem_append.mp member with old | new
    · exact books.alive g old
    · exact List.mem_singleton.mp new ▸ ⟨made, alive⟩
  · rw [conns, frames, destroyed]
    intro k bound
    rcases books.owned k bound with gone | ⟨g, member, mine⟩
    · exact Or.inl gone
    · exact Or.inr ⟨g, List.mem_append_left _ member, mine⟩

theorem Books.construct (books : Books w) {i : Fin n} {fd : Int} {c : Nat} (good : 0 ≤ fd) :
    Books (w.construct i fd c) := by
  have more : (w.construct i fd c).conns.length = w.conns.length + 1 := by simp [World.construct]
  refine ⟨fun conn member => ?_, fun k gone => ?_, fun f member => ?_, fun k bound => ?_⟩
  · rcases List.mem_append.mp member with old | new
    · exact books.nonneg conn old
    · rw [List.mem_singleton.mp new]
      exact good
  · obtain ⟨bound, freed⟩ := books.freed k gone
    refine ⟨by omega, fun conn here => freed conn ?_⟩
    rwa [← List.getElem?_append_left bound]
  · rcases List.mem_append.mp member with old | new
    · obtain ⟨bound, alive⟩ := books.alive f old
      exact ⟨by omega, alive⟩
    · rw [List.mem_singleton.mp new]
      exact ⟨more ▸ Nat.lt_succ_self _, fun gone => Nat.lt_irrefl _ (books.freed _ gone).1⟩
  · rcases Nat.lt_succ_iff_lt_or_eq.mp (more ▸ bound) with old | rfl
    · rcases books.owned k old with gone | ⟨f, member, mine⟩
      · exact Or.inl gone
      · exact Or.inr ⟨f, List.mem_append_left _ member, mine⟩
    · exact Or.inr ⟨_, List.mem_append_right _ (List.mem_singleton_self _), rfl⟩

theorem World.mem_unowned {k : Nat} :
    k ∈ w.unowned ↔ k < w.conns.length ∧ k ∉ w.destroyed ∧ ∀ f ∈ w.frames, f.conn ≠ k := by
  simp only [World.unowned, List.mem_filter, List.mem_range, decide_eq_true_eq]

theorem Books.letGo (books : Books w) (lost : Frame n → Bool) :
    Books (w.letGo lost) ∧ Kept w (w.letGo lost) ∧ (w.letGo lost).frames = w.frames.filter fun f => !lost f := by
  obtain ⟨kept, frames, all, freed⟩ := World.foldl_destruct (w := { w with frames := w.frames.filter fun f => !lost f })
    (World.unowned { w with frames := w.frames.filter fun f => !lost f }) books.nonneg
    (fun k member => (World.mem_unowned.mp member).1) fun k gone => (books.freed k gone).2
  have kept : Kept w (w.letGo lost) := ⟨kept.scheds, kept.conns, kept.wait, kept.gone⟩
  have conns := kept.conns
  have frames : (w.letGo lost).frames = w.frames.filter fun f => !lost f := frames
  have destroyed : (w.letGo lost).destroyed = _ := all
  refine ⟨⟨conns ▸ books.nonneg, fun k gone => ⟨?_, freed k gone⟩, fun f member => ?_, fun k bound => ?_⟩, kept,
    frames⟩
  · rw [conns]
    rw [destroyed] at gone
    rcases List.mem_append.mp gone with before | now
    · exact (books.freed k before).1
    · exact (World.mem_unowned.mp now).1
  · rw [frames] at member
    obtain ⟨bound, alive⟩ := books.alive f (List.mem_filter.mp member).1
    rw [conns, destroyed]
    refine ⟨bound, fun gone => ?_⟩
    rcases List.mem_append.mp gone with before | now
    · exact alive before
    · exact (World.mem_unowned.mp now).2.2 f member rfl
  · rw [conns] at bound
    rw [destroyed, frames]
    by_cases has : ∃ f ∈ w.frames.filter fun f => !lost f, f.conn = k
    · exact Or.inr has
    · refine Or.inl ?_
      by_cases before : k ∈ w.destroyed
      · exact List.mem_append_left _ before
      · refine List.mem_append_right _ (World.mem_unowned.mpr ⟨bound, before, fun f member mine => ?_⟩)
        exact has ⟨f, member, mine⟩

theorem Move.books (move : Move w a w') (books : Books w) : Books w' := by
  cases move with
  | finish => exact (books.set.letGo _).1
  | drop => exact (books.letGo _).1
  | @accept i _ _ sched _ good =>
    have books' : Books { w.set i sched with accepted := update w.accepted i (w.scheds i).resumed.length } :=
      books.congr rfl rfl rfl rfl rfl
    exact books'.construct good
  | @share i c d k _ has =>
    obtain ⟨made, alive⟩ := books.alive _ has
    exact books.hold (f := ⟨i, c, k⟩) made alive rfl rfl rfl rfl rfl
  | @evict i c k _ _ made alive =>
    obtain ⟨bound, _⟩ := List.getElem?_eq_some_iff.mp made
    exact books.hold (f := ⟨i, c, k⟩) bound alive rfl rfl rfl rfl rfl
  | _ => exact books.congr rfl rfl rfl rfl rfl

end CoroNet.TcpServer.Shutdown
