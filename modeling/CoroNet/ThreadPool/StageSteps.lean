import CoroNet.ThreadPool.Stages

namespace CoroNet.Submit

open Function Transition Scheduler CoroThreadPool

variable {m n : Nat} {ε ρ : Type} {w w' : World m n ε ρ} {a : Act m n ε ρ} {stage : Nat → Stage n}

theorem Inv.submit (inv : Inv w stage) (positive : 0 < n) {j : Fin m} {c : Nat} {rest : List Nat}
    {sched : Scheduler.World} {pool : CoroThreadPool.World n} (top : (w.scheds j).stack = c :: rest)
    (parks : Scheduler.step (w.scheds j) .park = some sched)
    (pushes : CoroThreadPool.step w.pool (.push w.submitted.length) = some pool) :
    Inv (w.submit j c sched pool) (update stage w.submitted.length .queued) := by
  obtain ⟨parked, none_yet, waiting⟩ := (inv.sound j).tokens.park top (Scheduler.step_move parks).2
  have running := (inv.sound j).tokens.top_running top
  have serving := inv.serving.step positive pushes nofun
  have more : (w.submit j c sched pool).submitted.length = w.submitted.length + 1 := by simp [World.submit]
  have pool_queue : pool.queue = w.pool.queue ++ [w.submitted.length] ∧ pool.workers = w.pool.workers := by
    cases CoroThreadPool.step_move pushes with
    | push => exact ⟨rfl, rfl⟩
  obtain ⟨queue, workers⟩ := pool_queue
  have older : ∀ t < w.submitted.length, update stage w.submitted.length .queued t = stage t :=
    fun t bound => update_of_ne (Nat.ne_of_lt bound) ..
  have same : ∀ t < w.submitted.length, Same w (w.submit j c sched pool) t := by
    intro t bound
    refine ⟨⟨update_of_ne (Nat.ne_of_lt bound) .., List.getElem?_append_left bound, fun i d awaits here => ?_, rfl, rfl⟩,
      fun inside => queue ▸ List.mem_append_left _ inside, fun i runs _ => ⟨workers ▸ runs, rfl⟩⟩
    have other : (i, d) ≠ (j, c) := by
      rintro same
      cases same
      exact nomatch running.symm.trans here
    refine ⟨(World.await_other other).trans awaits, ?_⟩
    by_cases mine : i = j
    · subst mine
      simpa only [World.submit, update_self] using waiting d here
    · simp only [World.submit, update_of_ne mine]
      exact ⟨here, trivial⟩
  obtain ⟨no_outcome, no_return⟩ := inv.unborn w.submitted.length (Nat.le_refl _)
  refine ⟨inv.fault, serving, inv.sound_update parks nofun, fun t bound => ?_, fun t inside => ?_, ?_,
    fun i t runs => ?_, fun i d t awaits => ?_, fun t beyond => inv.unborn t (by omega)⟩
  · rcases Nat.lt_succ_iff_lt_or_eq.mp (more ▸ bound) with old | rfl
    · rw [older t old]
      exact (inv.located t old).frame (same t old)
    · rw [update_self]
      refine ⟨{ srcSched := j, handle := c }, ⟨update_self .., by simp [World.submit], World.await_self, ?_, ?_,
        no_outcome, no_return⟩, rfl, by simp [World.submit, queue]⟩
      · simpa only [World.submit, update_self] using parked
      · simpa only [World.submit, update_self] using none_yet
  · have inside : t ∈ w.pool.queue ++ [w.submitted.length] := queue ▸ inside
    rcases List.mem_append.mp inside with old | new
    · obtain ⟨bound, queued⟩ := inv.queue t old
      exact ⟨by omega, (older t bound).trans queued⟩
    · rw [List.mem_singleton.mp new, update_self]
      exact ⟨by omega, rfl⟩
  · show pool.queue.Nodup
    rw [queue]
    refine List.Nodup.append inv.distinct (List.nodup_singleton _) (List.disjoint_singleton.mpr fun inside => ?_)
    exact Nat.lt_irrefl _ (inv.queue _ inside).1
  · obtain ⟨bound, fits⟩ := inv.working i t (workers ▸ runs)
    rw [older t bound]
    exact ⟨by omega, fits⟩
  · by_cases mine : (i, d) = (j, c)
    · cases mine
      cases Option.some.inj (World.await_self.symm.trans awaits)
      rw [update_self]
      exact ⟨by omega, nofun, by simp [World.submit]⟩
    · obtain ⟨bound, stays, listed⟩ := inv.awaited i d t ((World.await_other mine).symm.trans awaits)
      rw [older t bound]
      exact ⟨by omega, stays, (List.getElem?_append_left bound).trans listed⟩

/-- A step of the pool in which no task is taken or finished. -/
theorem Inv.loop (inv : Inv w stage) (positive : 0 < n) {b : CoroThreadPool.Act n} {pool : CoroThreadPool.World n}
    (inside : inLoop b = true) (no_take : ∀ i, b ≠ .take i) (moved : CoroThreadPool.step w.pool b = some pool) :
    Inv { w with pool := pool } stage := by
  have outside : (b ≠ .store ∧ b ≠ .notifyAll ∧ b ≠ .join) ∧ (∀ i threw, b ≠ .finish i threw) ∧ ∀ task, b ≠ .push task := by
    refine ⟨⟨?_, ?_, ?_⟩, ?_, ?_⟩ <;> intros <;> rintro rfl <;> cases inside
  obtain ⟨queue, workers⟩ := (CoroThreadPool.step_move moved).waiting outside.1 ⟨no_take, outside.2⟩
  have same : ∀ t, Same w { w with pool := pool } t := fun t =>
    ⟨⟨rfl, rfl, fun _ _ awaits here => ⟨awaits, here, rfl⟩, rfl, rfl⟩, fun here => queue ▸ here,
      fun i runs _ => ⟨(workers i t).mpr runs, rfl⟩⟩
  refine ⟨inv.fault, inv.serving.step positive moved outside.1.1, inv.sound,
    fun t bound => (inv.located t bound).frame (same t), fun t here => inv.queue t (queue ▸ here), ?_,
    fun i t runs => inv.working i t ((workers i t).mp runs), inv.awaited, inv.unborn⟩
  show pool.queue.Nodup
  rw [queue]
  exact inv.distinct

theorem Inv.take (inv : Inv w stage) (positive : 0 < n) {i : Fin n} {pool : CoroThreadPool.World n}
    (moved : CoroThreadPool.step w.pool (.take i) = some pool) :
    ∃ task, Inv { w with pool := pool, phases := update w.phases i .fresh } (update stage task (.taken i)) := by
  obtain ⟨task, rest, here, before, queue, workers⟩ := inv.serving.takes moved
  obtain ⟨mine, queued⟩ := inv.queue task (by simp [before])
  have distinct := inv.distinct
  rw [before, List.nodup_cons] at distinct
  have elsewhere : ∀ k s, w.pool.workers k = .running s → k ≠ i := by
    rintro k s runs rfl
    exact nomatch here.symm.trans runs
  have kept : ∀ t, Kept w { w with pool := pool, phases := update w.phases i .fresh } t := fun t =>
    ⟨rfl, rfl, fun _ _ awaits waits => ⟨awaits, waits, rfl⟩, rfl, rfl⟩
  refine ⟨task, inv.fault, inv.serving.step positive moved nofun, inv.sound, inv.others rfl (fun _ => ?_) fun t other => ?_,
    fun t inside => ?_, queue ▸ distinct.2, fun k t runs => ?_, fun _ _ _ awaits => inv.awaited_update awaits nofun,
    inv.unborn⟩
  · have waits := inv.located task mine
    rw [queued] at waits
    obtain ⟨aw, waiting, unset, _⟩ := waits
    exact ⟨aw, waiting.frame (kept task), unset, by rw [workers, World.set_self], update_self ..⟩
  · refine ⟨kept t, fun inside => ?_, fun k runs _ => ⟨?_, update_of_ne (elsewhere k t runs) ..⟩⟩
    · rw [before] at inside
      rw [queue]
      exact List.mem_of_ne_of_mem other inside
    · rw [workers, World.set_other (elsewhere k t runs)]
      exact runs
  · have still : t ∈ rest := queue ▸ inside
    have other : t ≠ task := by
      rintro rfl
      exact distinct.1 still
    rw [update_of_ne other]
    exact inv.queue t (by rw [before]; exact List.mem_cons_of_mem _ still)
  · by_cases this : k = i
    · subst this
      rw [workers, World.set_self] at runs
      cases runs
      simp only [update_self]
      exact ⟨mine, rfl⟩
    · rw [workers, World.set_other this] at runs
      obtain ⟨bound, fits⟩ := inv.working k t runs
      have other : t ≠ task := by
        rintro rfl
        rw [queued] at fits
        cases phase : w.phases k <;> simp [phase, Phase.Fits] at fits
      simp only [update_of_ne this, update_of_ne other]
      exact ⟨bound, fits⟩

theorem Inv.execute (inv : Inv w stage) {i : Fin n} {s : Nat} (runs : w.pool.workers i = .running s)
    (here : w.phases i = .fresh) (outcome : Except ε ρ) : Inv (w.execute i s outcome) (update stage s (.set i)) := by
  obtain ⟨mine, taken, aw, waiting, unset⟩ := inv.at_fresh runs here
  have executes : w.execute i s outcome = { w with
      awaiters := update w.awaiters s (some { aw with result := some outcome })
      executed := w.executed ++ [(s, outcome)]
      phases := update w.phases i .set } := by
    unfold World.execute
    rw [waiting.awaiter]
  rw [executes]
  refine ⟨inv.fault, inv.serving, inv.sound, inv.others rfl (fun _ => ?_) fun t other => ?_, fun t inside => ?_,
    inv.distinct, fun k t now => ?_, fun _ _ _ awaits => inv.awaited_update awaits nofun, fun t beyond => ?_⟩
  · refine ⟨{ aw with result := some outcome }, ⟨update_self .., waiting.mine, waiting.awaits, waiting.parked,
      waiting.entries, ?_, waiting.returns⟩, nofun, runs, update_self ..⟩
    rw [World.outcomes_append (w := w) rfl, if_pos rfl, waiting.outcomes, unset]
    rfl
  · refine ⟨⟨update_of_ne other .., rfl, fun _ _ awaits waits => ⟨awaits, waits, rfl⟩, ?_, rfl⟩, id,
      fun k now _ => ⟨now, update_of_ne ?_ ..⟩⟩
    · exact World.outcomes_other rfl other.symm
    · rintro rfl
      cases runs.symm.trans now
      exact other rfl
  · exact inv.queue_update (by simp [taken]) inside
  · refine inv.working_step runs (Or.inl taken) ?_ now
    exact rfl
  · obtain ⟨no_outcome, no_return⟩ := inv.unborn t beyond
    have other : s ≠ t := Nat.ne_of_lt (Nat.lt_of_lt_of_le mine beyond)
    exact ⟨(World.outcomes_other rfl other).trans no_outcome, no_return⟩

theorem Inv.post (inv : Inv w stage) {i : Fin n} {s : Nat} (runs : w.pool.workers i = .running s)
    (here : w.phases i = .set) (moved : w.post i s = some w') : Inv w' (update stage s .posted) := by
  obtain ⟨mine, is_set, aw, waiting, has_result⟩ := inv.at_set runs here
  unfold World.post at moved
  rw [waiting.awaiter] at moved
  obtain ⟨sched, posts, rfl⟩ := Option.map_eq_some_iff.mp moved
  have no_entry := waiting.entries
  have postable : (w.scheds aw.srcSched).postable (some aw.handle) = true := by
    unfold Scheduler.World.entries at no_entry
    exact decide_eq_true (Or.inr ⟨waiting.parked, by omega, by omega⟩)
  obtain ⟨coros, entries⟩ := (Scheduler.step_move posts).2.post_entries
  refine ⟨inv.fault, inv.serving, inv.sound_update posts fun h same => ?_, inv.others rfl (fun _ => ?_) fun t other => ?_,
    fun t inside => ?_, inv.distinct, fun k t now => ?_, fun _ _ _ awaits => inv.awaited_update awaits nofun, inv.unborn⟩
  · cases Option.some.inj same
    exact postable
  · refine ⟨aw, ⟨waiting.awaiter, waiting.mine, waiting.awaits, ?_, ?_, waiting.outcomes, waiting.returns⟩, has_result⟩
    · simp only [update_self, coros, waiting.parked]
    · simp only [update_self, entries, no_entry]
  · refine ⟨⟨rfl, rfl, fun j c awaits waits => ⟨awaits, inv.waits posts waits ?_⟩, rfl, rfl⟩, id,
      fun k now _ => ⟨now, update_of_ne ?_ ..⟩⟩
    · rintro rfl
      refine ⟨fun same => ?_, nofun⟩
      cases same
      exact other (Option.some.inj (awaits.symm.trans waiting.awaits))
    · rintro rfl
      cases runs.symm.trans now
      exact other rfl
  · exact inv.queue_update (by simp [is_set]) inside
  · refine inv.working_step runs (Or.inr is_set) ?_ now
    exact Or.inl rfl

theorem Inv.wake (inv : Inv w stage) {i : Fin n} {j : Fin m} {sched : Scheduler.World} (here : w.phases i = .posted j)
    (moved : Scheduler.step (w.scheds j) (.wake i) = some sched) :
    Inv { w with scheds := update w.scheds j sched, phases := update w.phases i .woken } stage := by
  refine ⟨inv.fault, inv.serving, inv.sound_update moved nofun, fun t bound => (inv.located t bound).frame ?_, inv.queue,
    inv.distinct, fun k t => inv.working_update (by simp [here]) (by simp), inv.awaited, inv.unborn⟩
  refine ⟨⟨rfl, rfl, fun k c awaits waits => ⟨awaits, inv.waits moved waits fun _ => ⟨nofun, nofun⟩⟩, rfl, rfl⟩, id,
    fun k now early => ⟨now, update_of_ne ?_ ..⟩⟩
  rintro rfl
  simp [here] at early

theorem Inv.finish (inv : Inv w stage) (positive : 0 < n) {i : Fin n} {pool : CoroThreadPool.World n}
    (here : w.phases i = .woken) (moved : CoroThreadPool.step w.pool (.finish i false) = some pool) :
    Inv { w with pool := pool, phases := update w.phases i .idle } stage := by
  have serving := inv.serving.step positive moved nofun
  cases CoroThreadPool.step_move moved with
  | finish =>
    have others : ∀ k t, (w.pool.set i .top).workers k = .running t → w.pool.workers k = .running t := by
      intro k t runs
      by_cases this : k = i
      · rw [this, CoroThreadPool.World.set_self] at runs
        cases runs
      · rwa [CoroThreadPool.World.set_other this] at runs
    refine ⟨inv.fault, serving, inv.sound, fun t bound => (inv.located t bound).frame ?_, inv.queue, inv.distinct,
      fun k t runs => inv.working_update (by simp [here]) (by simp) (others k t runs), inv.awaited, inv.unborn⟩
    refine ⟨⟨rfl, rfl, fun _ _ awaits waits => ⟨awaits, waits, rfl⟩, rfl, rfl⟩, id, fun k runs early => ?_⟩
    have other : k ≠ i := by
      rintro rfl
      simp [here] at early
    exact ⟨(CoroThreadPool.World.set_other other).trans runs, update_of_ne other ..⟩

/-- A scheduler takes a step that resumes nobody who waits for a submission. -/
theorem Inv.quiet (inv : Inv w stage) {j : Fin m} {b : Scheduler.Act} {sched : Scheduler.World}
    (permitted : w.permits j b = true) (moved : Scheduler.step (w.scheds j) b = some sched)
    (nobody : ∀ c, (w.scheds j).resumes b = some c → w.awaits j c = none) :
    Inv { w with scheds := update w.scheds j sched } stage := by
  have posts := World.permits_posts permitted
  refine ⟨inv.fault, inv.serving, inv.sound_update moved fun h same => (World.foreign_postable (posts h same)).1,
    fun t bound => (inv.located t bound).frame ?_, inv.queue, inv.distinct, inv.working, inv.awaited, inv.unborn⟩
  refine ⟨⟨rfl, rfl, fun k c awaits waits => ⟨awaits, inv.waits moved waits ?_⟩, rfl, rfl⟩, id,
    fun k runs _ => ⟨runs, rfl⟩⟩
  rintro rfl
  refine ⟨fun same => ?_, fun same => ?_⟩
  · exact nomatch awaits.symm.trans ((World.foreign_postable (posts _ same)).2 c rfl)
  · exact nomatch awaits.symm.trans (nobody c same)

/-- The coroutine of a submission is resumed. -/
theorem Inv.resume (inv : Inv w stage) {j : Fin m} {b : Scheduler.Act} {sched : Scheduler.World} {c s : Nat}
    (moved : Scheduler.step (w.scheds j) b = some sched) (resumes : (w.scheds j).resumes b = some c)
    (awaits : w.awaits j c = some s) :
    ∃ aw, w.awaiters s = some aw ∧
      Inv { w with
        scheds := update w.scheds j sched
        awaiters := update w.awaiters s none
        awaits := w.await j c none
        resumed := w.resumed ++ [(s, j, aw.result)] } (update stage s .resumed) := by
  obtain ⟨rfl, _, _, rest, queue⟩ := World.resumes_some resumes
  obtain ⟨mine, stays, listed⟩ := inv.awaited j c s awaits
  have silent : ∀ h, Scheduler.Act.next.posts ≠ some h := fun h => (Option.some_ne_none h).symm
  have entered : 0 < (w.scheds j).entries c := by
    have ready := World.ready_cons queue c
    rw [if_pos rfl] at ready
    unfold Scheduler.World.entries
    omega
  have here : ∀ aw entries, Waiting w s aw entries → aw.srcSched = j ∧ aw.handle = c ∧ 0 < entries := by
    intro aw entries waiting
    cases Option.some.inj (waiting.mine.symm.trans listed)
    exact ⟨rfl, rfl, waiting.entries ▸ entered⟩
  have located := inv.located s mine
  have posted : stage s = .posted := by
    cases at_stage : stage s with
    | posted => rfl
    | resumed => exact absurd at_stage stays
    | queued | taken | set =>
      rw [at_stage] at located
      obtain ⟨aw, waiting, _⟩ := located
      exact absurd (here aw 0 waiting).2.2 (Nat.lt_irrefl 0)
  rw [posted] at located
  obtain ⟨aw, waiting, has_result⟩ := located
  obtain ⟨outcome, result⟩ := Option.ne_none_iff_exists'.mp has_result
  refine ⟨aw, waiting.awaiter, inv.fault, inv.serving, inv.sound_update moved fun h posts => absurd posts (silent h),
    inv.others rfl (fun _ => ⟨j, c, outcome, listed, ?_, ?_⟩) fun t other => ?_, fun t inside => ?_, inv.distinct,
    fun k t runs => ?_, fun i d t awaiting => ?_, fun t beyond => ?_⟩
  · show w.outcomes s = [outcome]
    rw [waiting.outcomes, result]
    rfl
  · rw [World.returns_append (w := w) rfl, if_pos rfl, waiting.returns, result]
    rfl
  · refine ⟨⟨update_of_ne other .., rfl, fun i d awaiting waits => ?_, rfl, ?_⟩, id, fun k runs _ => ⟨runs, rfl⟩⟩
    · have apart : (i, d) ≠ (j, c) := by
        rintro same
        cases same
        exact other (Option.some.inj (awaiting.symm.trans awaits))
      refine ⟨(World.await_other apart).trans awaiting, inv.waits moved waits ?_⟩
      rintro rfl
      refine ⟨silent _, fun same => apart ?_⟩
      rw [Option.some.inj (resumes.symm.trans same)]
    · exact World.returns_other rfl other.symm
  · exact inv.queue_update (by simp [posted]) inside
  · obtain ⟨bound, fits⟩ := inv.working k t runs
    refine ⟨bound, ?_⟩
    by_cases this : t = s
    · subst this
      rw [posted] at fits
      rw [update_self]
      cases phase : w.phases k <;> simp_all [Phase.Fits]
    · rwa [update_of_ne this]
  · have apart : (i, d) ≠ (j, c) := by
      rintro same
      cases same
      exact Option.some_ne_none t (awaiting.symm.trans World.await_self)
    obtain ⟨bound, before, elsewhere⟩ := inv.awaited i d t ((World.await_other apart).symm.trans awaiting)
    have other : t ≠ s := by
      rintro rfl
      exact apart (Option.some.inj (elsewhere.symm.trans listed))
    exact ⟨bound, update_of_ne other .. ▸ before, elsewhere⟩
  · obtain ⟨no_outcome, no_return⟩ := inv.unborn t beyond
    have other : s ≠ t := Nat.ne_of_lt (Nat.lt_of_lt_of_le mine beyond)
    exact ⟨no_outcome, (World.returns_other rfl other).trans no_return⟩

theorem Inv.start (entries : Fin m → Nat) (sqpoll : Fin m → Bool) :
    Inv (start n entries sqpoll : World m n ε ρ) fun _ => .queued where
  fault := rfl
  serving := .start
  sound _ := .start ..
  located _ bound := absurd bound (Nat.not_lt_zero _)
  queue _ inside := absurd inside List.not_mem_nil
  distinct := List.nodup_nil
  working _ _ runs := nomatch runs
  awaited _ _ _ awaits := nomatch awaits
  unborn _ _ := ⟨rfl, rfl⟩

theorem Move.inv (move : Move w a w') (positive : 0 < n) (inv : Inv w stage) : ∃ stage', Inv w' stage' := by
  cases move with
  | submit top parks pushes => exact ⟨_, inv.submit positive top parks pushes⟩
  | loop inside no_take moved => exact ⟨_, inv.loop positive inside no_take moved⟩
  | take moved =>
    obtain ⟨task, inv'⟩ := inv.take positive moved
    exact ⟨_, inv'⟩
  | execute runs here => exact ⟨_, inv.execute runs here _⟩
  | post runs here moved => exact ⟨_, inv.post runs here moved⟩
  | wake here moved => exact ⟨_, inv.wake here moved⟩
  | finish here moved => exact ⟨_, inv.finish positive here moved⟩
  | @scheduler j b sched permitted moved =>
    cases resumes : (w.scheds j).resumes b with
    | none => exact ⟨_, inv.quiet permitted moved (by simp [resumes])⟩
    | some c =>
      unfold World.awaitResume
      cases awaits : w.awaits j c with
      | none =>
        simp only [awaits]
        refine ⟨_, inv.quiet permitted moved fun d same => ?_⟩
        cases Option.some.inj (resumes.symm.trans same)
        exact awaits
      | some s =>
        obtain ⟨aw, awaiter, inv'⟩ := inv.resume moved resumes awaits
        simp only [awaits, awaiter]
        exact ⟨_, inv'⟩

end CoroNet.Submit
