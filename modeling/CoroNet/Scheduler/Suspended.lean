import CoroNet.Scheduler.Tokens

namespace CoroNet.Scheduler

open Function Transition

variable {w w' : World} {a : Act}

/-- The entries of a coroutine in `ready_`. -/
def World.ready (w : World) (c : Nat) : Nat := w.readyQueue.count (some c)

/-- The entries of a coroutine in `cross_`. -/
def World.cross (w : World) (c : Nat) : Nat := (w.handles.map Pushed.item).count (some c)

/-- A handle may be posted: the coroutine waits for it, and no other post of
it is on its way; or there is nothing to resume. -/
def World.postable (w : World) : Handle → Bool
  | none => true
  | some c => decide (w.coros c = .done ∨ w.coros c = .parked ∧ w.ready c = 0 ∧ w.cross c = 0)

/-- Suspensions get an SQE, and each suspension has one awaiter to end it. -/
def orderly (w : World) : Act → Bool
  | .suspend _ => decide (w.ring.pending < w.ring.entries)
  | .selfPost h | .post _ h => w.postable h
  | _ => true

/-- What there is of a coroutine: one that is suspended on an awaiter has one
token in the ring or in `ready_`, one that waits for a post at most one entry. -/
def World.Held (w : World) (c : Nat) : Prop :=
  match w.coros c with
  | .suspended b => (w.awaiters b).map Awaiter.handle = some c ∧ w.flying (.awaiter b) + w.ready c = 1 ∧ w.cross c = 0
  | .parked => w.ready c + w.cross c ≤ 1
  | .absent | .running => w.ready c = 0 ∧ w.cross c = 0
  | .done => True

/-- Coroutines and awaiters belong together one to one, and the running
coroutines are those on the stack. -/
structure Tokens (w : World) : Prop where
  held : ∀ c, w.Held c
  awaiter : ∀ b aw, w.awaiters b = some aw → b < w.suspensions ∧ w.coros aw.handle = .suspended b
  freed : ∀ b, w.awaiters b = none → w.flying (.awaiter b) = 0
  nodup : w.stack.Nodup
  running : ∀ c, c ∈ w.stack ↔ w.coros c = .running
  idle : w.userCode = false → w.stack = []

theorem Tokens.start (entries : Nat) (sqpoll : Bool) : Tokens (start entries sqpoll) where
  held _ := ⟨rfl, rfl⟩
  awaiter _ _ := nofun
  freed _ _ := rfl
  nodup := List.nodup_nil
  running _ := ⟨nofun, nofun⟩
  idle _ := rfl

theorem World.Held.congr {c : Nat} (held : w.Held c) (coro : w'.coros c = w.coros c) (ready : w'.ready c = w.ready c)
    (cross : w'.cross c = w.cross c)
    (io : ∀ b, w.coros c = .suspended b → (w'.awaiters b).map Awaiter.handle = (w.awaiters b).map Awaiter.handle ∧
      w'.flying (.awaiter b) = w.flying (.awaiter b)) : w'.Held c := by
  unfold World.Held at held ⊢
  rw [coro, ready, cross]
  cases here : w.coros c with
  | suspended b =>
    obtain ⟨handle, flying⟩ := io b here
    rw [here] at held
    simpa only [handle, flying] using held
  | done => trivial
  | _ => simpa only [here] using held

theorem World.Held.suspended {c b : Nat} (held : w.Held c) (here : w.coros c = .suspended b) :
    (∃ aw, w.awaiters b = some aw ∧ aw.handle = c) ∧ w.flying (.awaiter b) + w.ready c = 1 ∧ w.cross c = 0 := by
  unfold World.Held at held
  rw [here] at held
  exact ⟨Option.map_eq_some_iff.mp held.1, held.2⟩

theorem World.Held.parked {c : Nat} (held : w.Held c) (here : w.coros c = .parked) : w.ready c + w.cross c ≤ 1 := by
  unfold World.Held at held
  rwa [here] at held

theorem World.Held.busy {c : Nat} (held : w.Held c) (here : w.coros c = .absent ∨ w.coros c = .running) :
    w.ready c = 0 ∧ w.cross c = 0 := by
  unfold World.Held at held
  rcases here with absent | running
  · rwa [absent] at held
  · rwa [running] at held

theorem World.Held.of_suspended {c b : Nat} {aw : Awaiter} (here : w.coros c = .suspended b)
    (mine : w.awaiters b = some aw) (handle : aw.handle = c) (one : w.flying (.awaiter b) + w.ready c = 1)
    (cross : w.cross c = 0) : w.Held c := by
  unfold World.Held
  rw [here]
  exact ⟨Option.map_eq_some_iff.mpr ⟨aw, mine, handle⟩, one, cross⟩

theorem World.Held.of_running {c : Nat} (here : w.coros c = .running) (ready : w.ready c = 0) (cross : w.cross c = 0) :
    w.Held c := by
  unfold World.Held
  rw [here]
  exact ⟨ready, cross⟩

theorem World.Held.of_parked {c : Nat} (here : w.coros c = .parked) (bound : w.ready c + w.cross c ≤ 1) :
    w.Held c := by
  unfold World.Held
  rwa [here]

theorem World.Held.of_done {c : Nat} (here : w.coros c = .done) : w.Held c := by
  unfold World.Held
  rw [here]
  trivial

/-- Two coroutines are not suspended on one awaiter. -/
theorem Tokens.apart (tokens : Tokens w) {c d b : Nat} (here : w.coros c = .suspended b)
    (there : w.coros d = .suspended b) : c = d := by
  obtain ⟨⟨aw, awaiter, rfl⟩, _⟩ := (tokens.held c).suspended here
  obtain ⟨⟨aw', awaiter', rfl⟩, _⟩ := (tokens.held d).suspended there
  rw [awaiter] at awaiter'
  cases awaiter'
  rfl

/-- A step that leaves the coroutines, their awaiters and their tokens alone. -/
theorem Tokens.steady (tokens : Tokens w) (coros : w'.coros = w.coros) (awaiters : w'.awaiters = w.awaiters)
    (suspensions : w'.suspensions = w.suspensions) (stack : w'.stack = w.stack)
    (ready : ∀ c, w.coros c ≠ .done → w'.ready c = w.ready c) (cross : ∀ c, w'.cross c = w.cross c)
    (flying : ∀ b, w'.flying (.awaiter b) = w.flying (.awaiter b)) (idle : w'.userCode = false → w.stack = []) :
    Tokens w' where
  held c := by
    by_cases ended : w.coros c = .done
    · exact .of_done (by rw [coros, ended])
    · exact (tokens.held c).congr (by rw [coros]) (ready c ended) (cross c) fun b _ => ⟨by rw [awaiters], flying b⟩
  awaiter b aw here := by
    rw [awaiters] at here
    rw [suspensions, coros]
    exact tokens.awaiter b aw here
  freed b gone := by
    rw [awaiters] at gone
    rw [flying, tokens.freed b gone]
  nodup := by
    rw [stack]
    exact tokens.nodup
  running c := by
    rw [stack, coros]
    exact tokens.running c
  idle outside := by
    rw [stack]
    exact idle outside

theorem World.ready_cons {h : Handle} {rest : List Handle} (queue : w.readyQueue = h :: rest) (c : Nat) :
    w.ready c = rest.count (some c) + if h = some c then 1 else 0 := by
  simp only [World.ready, queue, List.count_cons, beq_iff_eq]

theorem World.ready_append {h : Handle} (queue : w'.readyQueue = w.readyQueue ++ [h]) (c : Nat) :
    w'.ready c = w.ready c + if h = some c then 1 else 0 := by
  simp only [World.ready, queue, List.count_append, List.count_singleton, beq_iff_eq]

theorem World.cross_append {p : Pushed Handle} (queue : w'.handles = w.handles ++ [p]) (c : Nat) :
    w'.cross c = w.cross c + if p.item = some c then 1 else 0 := by
  simp only [World.cross, queue, List.map_append, List.count_append, List.map_cons, List.map_nil,
    List.count_singleton, beq_iff_eq]

/-- A step that changes one coroutine leaves what the others hold. -/
theorem Tokens.held_others (tokens : Tokens w) (c : Nat) (held : w'.Held c)
    (others : ∀ d, d ≠ c → w'.coros d = w.coros d ∧ w'.ready d = w.ready d ∧ w'.cross d = w.cross d)
    (io : ∀ d b, d ≠ c → w.coros d = .suspended b →
      (w'.awaiters b).map Awaiter.handle = (w.awaiters b).map Awaiter.handle ∧
        w'.flying (.awaiter b) = w.flying (.awaiter b)) (d : Nat) : w'.Held d := by
  by_cases same : d = c
  · rw [same]
    exact held
  · obtain ⟨coro, ready, cross⟩ := others d same
    exact (tokens.held d).congr coro ready cross fun b here => io d b same here

theorem Tokens.running_push (tokens : Tokens w) {c : Nat} (fresh : w.coros c ≠ .running) :
    (c :: w.stack).Nodup ∧ ∀ d, d ∈ c :: w.stack ↔ update w.coros c .running d = .running := by
  refine ⟨List.nodup_cons.mpr ⟨fun member => fresh ((tokens.running c).mp member), tokens.nodup⟩, fun d => ?_⟩
  by_cases same : d = c
  · simp [same]
  · rw [update_of_ne same, ← tokens.running d, List.mem_cons]
    exact or_iff_right same

theorem Tokens.running_pop (tokens : Tokens w) {c : Nat} {rest : List Nat} (coro : Coro) (top : w.stack = c :: rest)
    (other : coro ≠ .running) : rest.Nodup ∧ ∀ d, d ∈ rest ↔ update w.coros c coro d = .running := by
  have nodup := tokens.nodup
  rw [top, List.nodup_cons] at nodup
  refine ⟨nodup.2, fun d => ?_⟩
  by_cases same : d = c
  · rw [same, update_self]
    exact ⟨fun member => absurd member nodup.1, fun running => absurd running other⟩
  · rw [update_of_ne same, ← tokens.running d, top, List.mem_cons]
    exact (or_iff_right same).symm

theorem Tokens.top_running (tokens : Tokens w) {c : Nat} {rest : List Nat} (top : w.stack = c :: rest) :
    w.coros c = .running := by
  rw [← tokens.running c, top]
  exact List.mem_cons_self

/-- A coroutine that is not suspended on an awaiter has none. -/
theorem Tokens.awaiter_ne (tokens : Tokens w) {c b : Nat} {aw : Awaiter} (other : ∀ i, w.coros c ≠ .suspended i)
    (here : w.awaiters b = some aw) : aw.handle ≠ c := by
  rintro rfl
  exact other b (tokens.awaiter b aw here).2

/-- One coroutine goes from one place to another, neither of them on an awaiter. -/
theorem Tokens.switch (tokens : Tokens w) {c : Nat} {coro : Coro} (before : ∀ b, w.coros c ≠ .suspended b)
    (coros : w'.coros = update w.coros c coro) (awaiters : w'.awaiters = w.awaiters)
    (suspensions : w'.suspensions = w.suspensions) (flying : ∀ b, w'.flying (.awaiter b) = w.flying (.awaiter b))
    (held : w'.Held c) (others : ∀ d, d ≠ c → w'.ready d = w.ready d ∧ w'.cross d = w.cross d)
    (stack : w'.stack.Nodup ∧ ∀ d, d ∈ w'.stack ↔ update w.coros c coro d = .running)
    (idle : w'.userCode = false → w'.stack = []) : Tokens w' where
  held := by
    refine tokens.held_others c held (fun d other => ⟨?_, others d other⟩) fun d b _ _ => ⟨by rw [awaiters], flying b⟩
    rw [coros, update_of_ne other]
  awaiter b aw here := by
    rw [awaiters] at here
    rw [suspensions, coros, update_of_ne (tokens.awaiter_ne before here)]
    exact tokens.awaiter b aw here
  freed b gone := by
    rw [awaiters] at gone
    rw [flying, tokens.freed b gone]
  nodup := stack.1
  running d := by
    rw [coros]
    exact stack.2 d
  idle := idle

theorem World.userCode_stays (user : w.userCode = true) {stack : List Nat} (outside : w.userCode = false) :
    stack = [] :=
  absurd (user.symm.trans outside) nofun

theorem Tokens.spawn (tokens : Tokens w) {c : Nat} (user : w.userCode = true) (fresh : w.coros c = .absent) :
    Tokens { w with coros := update w.coros c .running, stack := c :: w.stack } := by
  refine tokens.switch (by simp [fresh]) rfl rfl rfl (fun _ => rfl) ?_ (fun _ _ => ⟨rfl, rfl⟩)
    (tokens.running_push (by simp [fresh])) (World.userCode_stays user)
  obtain ⟨ready, cross⟩ := (tokens.held c).busy (Or.inl fresh)
  exact .of_running (update_self ..) ready cross

theorem Tokens.leave (tokens : Tokens w) {c : Nat} {rest : List Nat} {coro : Coro} (user : w.userCode = true)
    (top : w.stack = c :: rest) (goes : coro = .parked ∨ coro = .done) :
    Tokens { w with coros := update w.coros c coro, stack := rest } := by
  have running := tokens.top_running top
  obtain ⟨ready, cross⟩ := (tokens.held c).busy (Or.inr running)
  have other : coro ≠ .running := by
    rcases goes with rfl | rfl <;> simp
  refine tokens.switch (by simp [running]) rfl rfl rfl (fun _ => rfl) ?_ (fun _ _ => ⟨rfl, rfl⟩)
    (tokens.running_pop coro top other) (World.userCode_stays user)
  rcases goes with rfl | rfl
  · refine .of_parked (update_self ..) ?_
    show w.ready c + w.cross c ≤ 1
    omega
  · exact .of_done (update_self ..)

/-- A coroutine that waits for a post is resumed. -/
theorem Tokens.resumeParked (tokens : Tokens w) {c : Nat} {rest : List Handle} (here : w.pc = .ready)
    (queue : w.readyQueue = some c :: rest) (waits : w.coros c = .parked) :
    Tokens { w with readyQueue := rest, coros := update w.coros c .running, stack := [c], pc := .inCoro } := by
  have bound := (tokens.held c).parked waits
  have empty : w.stack = [] := tokens.idle (by simp [World.userCode, here])
  have stack := tokens.running_push (c := c) (by simp [waits])
  rw [empty] at stack
  rw [World.ready_cons queue c, if_pos rfl] at bound
  refine tokens.switch (by simp [waits]) rfl rfl rfl
    (fun _ => World.flying_congr rfl (by rw [here]; rfl)) ?_ (fun d other => ⟨?_, rfl⟩) stack nofun
  · refine .of_running (update_self ..) ?_ ?_
    · show rest.count (some c) = 0
      omega
    · show w.cross c = 0
      omega
  · rw [World.ready_cons queue d, if_neg (by simpa using other.symm)]
    rfl

/-- A coroutine whose operation has completed is resumed; its awaiter is gone. -/
theorem Tokens.resumeIo (tokens : Tokens w) {c i : Nat} {rest : List Handle} (result : Int)
    (here : w.pc = .ready) (queue : w.readyQueue = some c :: rest) (waits : w.coros c = .suspended i) :
    Tokens (World.handOut { w with readyQueue := rest } c i result) := by
  obtain ⟨⟨aw, mine, handle⟩, one, cross⟩ := (tokens.held c).suspended waits
  have empty : w.stack = [] := tokens.idle (by simp [World.userCode, here])
  have stack := tokens.running_push (c := c) (by simp [waits])
  rw [empty] at stack
  rw [World.ready_cons queue c, if_pos rfl] at one
  have flying : ∀ b, (World.handOut { w with readyQueue := rest } c i result).flying (.awaiter b) =
      w.flying (.awaiter b) :=
    fun _ => World.flying_congr rfl (by rw [here]; rfl)
  refine ⟨tokens.held_others c ?_ (fun d other => ⟨update_of_ne other .., ?_, rfl⟩) fun d b other there => ⟨?_, flying b⟩,
    fun b aw' there => ?_, fun b gone => ?_, stack.1, stack.2, nofun⟩
  · refine .of_running (update_self ..) ?_ cross
    show rest.count (some c) = 0
    omega
  · rw [World.ready_cons queue d, if_neg (by simpa using other.symm)]
    rfl
  · have different : b ≠ i := by
      rintro rfl
      exact other (tokens.apart there waits)
    simp only [World.handOut, update_of_ne different]
  · have different : b ≠ i := by
      rintro rfl
      simp [World.handOut] at there
    simp only [World.handOut, update_of_ne different] at there ⊢
    obtain ⟨bound, coro⟩ := tokens.awaiter b aw' there
    have other : aw'.handle ≠ c := by
      intro same
      rw [same, waits] at coro
      exact different (Coro.suspended.inj coro).symm
    exact ⟨bound, by rw [update_of_ne other, coro]⟩
  · rw [flying]
    by_cases same : b = i
    · rw [same]
      omega
    · simp only [World.handOut, update_of_ne same] at gone
      exact tokens.freed b gone

theorem Tokens.resumable (tokens : Tokens w) {b : Nat} {aw : Awaiter} (mine : w.awaiters b = some aw) :
    w.resumable (some aw.handle) = true := by
  simp [World.resumable, (tokens.awaiter b aw mine).2]

/-- The token of a suspended coroutine goes from the completion queue to `ready_`. -/
theorem Tokens.complete (tokens : Tokens w) {i n b : Nat} {cqe : Cqe} {awaiter : Awaiter}
    (written : List (Nat × Int)) (here : w.pc = .batch i n) (at_i : w.ring.cq[i]? = some cqe)
    (data : cqe.userData = .awaiter b) (mine : w.awaiters b = some awaiter) :
    Tokens { w with
      awaiters := update w.awaiters b (some { awaiter with result := cqe.res, cqeFlags := cqe.flags })
      written := written
      readyQueue := w.readyQueue ++ [some awaiter.handle]
      pc := .batch (i + 1) n } := by
  obtain ⟨bound, waits⟩ := tokens.awaiter b awaiter mine
  obtain ⟨_, one, cross⟩ := (tokens.held awaiter.handle).suspended waits
  have empty : w.stack = [] := tokens.idle (by simp [World.userCode, here])
  have taken : ∀ x, w.flying (.awaiter x) = World.flying { w with pc := .batch (i + 1) n } (.awaiter x) +
      if b = x then 1 else 0 := by
    intro x
    rw [World.flying_take (.awaiter x) here at_i, data]
    simp only [UserData.awaiter.injEq]
  have own := taken b
  rw [if_pos rfl] at own
  refine ⟨tokens.held_others awaiter.handle ?_ (fun d other => ⟨rfl, ?_, rfl⟩) fun d x other there => ?_,
    fun x aw there => ?_, fun x gone => ?_, tokens.nodup, tokens.running, fun _ => empty⟩
  · refine .of_suspended waits (update_self ..) rfl ?_ cross
    rw [World.ready_append rfl, if_pos rfl]
    show World.flying { w with pc := .batch (i + 1) n } (.awaiter b) + (w.ready awaiter.handle + 1) = 1
    omega
  · rw [World.ready_append (w := w) rfl, if_neg (by simpa using other.symm), Nat.add_zero]
  · have different : x ≠ b := by
      rintro rfl
      exact other (tokens.apart there waits)
    have same := taken x
    rw [if_neg different.symm, Nat.add_zero] at same
    exact ⟨by simp only [update_of_ne different], same.symm⟩
  · by_cases same : x = b
    · simp only [same, update_self, Option.some.injEq] at there
      rw [← there, same]
      exact ⟨bound, waits⟩
    · simp only [update_of_ne same] at there
      exact tokens.awaiter x aw there
  · have different : x ≠ b := by
      rintro rfl
      simp at gone
    simp only [update_of_ne different] at gone
    have none_left := tokens.freed x gone
    rw [taken x] at none_left
    show World.flying { w with pc := .batch (i + 1) n } (.awaiter x) = 0
    omega

theorem Tokens.fresh (tokens : Tokens w) : w.awaiters w.suspensions = none := by
  by_contra some_aw
  obtain ⟨aw, mine⟩ := Option.ne_none_iff_exists'.mp some_aw
  exact absurd (tokens.awaiter _ aw mine).1 (Nat.lt_irrefl _)

/-- A coroutine suspends on a new awaiter, whose token is in the submission queue. -/
theorem Tokens.suspend (tokens : Tokens w) {op : IoAwaiter} {c : Nat} {rest : List Nat} (user : w.userCode = true)
    (top : w.stack = c :: rest) :
    Tokens (w.suspendOn (w.ring.push ⟨op.prep, .awaiter w.suspensions⟩) op c rest) := by
  have running := tokens.top_running top
  obtain ⟨ready, cross⟩ := (tokens.held c).busy (Or.inr running)
  have fresh := tokens.fresh
  have flying : ∀ b, (w.suspendOn (w.ring.push ⟨op.prep, .awaiter w.suspensions⟩) op c rest).flying (.awaiter b) =
      w.flying (.awaiter b) + if w.suspensions = b then 1 else 0 :=
    fun b => World.flying_push_awaiter op.prep rfl rfl
  have stack := tokens.running_pop (.suspended w.suspensions) top nofun
  refine ⟨tokens.held_others c ?_ (fun d other => ⟨update_of_ne other .., rfl, rfl⟩) fun d b other there => ?_,
    fun b aw there => ?_, fun b gone => ?_, stack.1, stack.2, World.userCode_stays user⟩
  · refine .of_suspended (update_self ..) (update_self ..) rfl ?_ cross
    rw [flying, if_pos rfl, tokens.freed _ fresh]
    show 0 + 1 + w.ready c = 1
    omega
  · obtain ⟨⟨aw, mine, _⟩, _⟩ := (tokens.held d).suspended there
    have older : b ≠ w.suspensions := Nat.ne_of_lt (tokens.awaiter b aw mine).1
    rw [flying, if_neg older.symm]
    exact ⟨by simp only [World.suspendOn, update_of_ne older], rfl⟩
  · by_cases same : b = w.suspensions
    · simp only [World.suspendOn, same, update_self, Option.some.injEq] at there
      rw [← there, same]
      exact ⟨Nat.lt_succ_self _, update_self ..⟩
    · simp only [World.suspendOn, update_of_ne same] at there
      obtain ⟨bound, coro⟩ := tokens.awaiter b aw there
      have other : aw.handle ≠ c := tokens.awaiter_ne (by simp [running]) there
      exact ⟨Nat.lt_succ_of_lt bound, (update_of_ne other ..).trans coro⟩
  · have older : b ≠ w.suspensions := by
      rintro rfl
      simp [World.suspendOn] at gone
    simp only [World.suspendOn, update_of_ne older] at gone
    rw [flying, if_neg older.symm, tokens.freed b gone]

/-- The handles that were posted go to `ready_`. -/
theorem Tokens.drain (tokens : Tokens w) (here : w.pc = .draining) : Tokens w.drain := by
  have flying : ∀ b, w.drain.flying (.awaiter b) = w.flying (.awaiter b) :=
    fun _ => World.flying_congr rfl (by rw [here]; rfl)
  have cross : ∀ c, w.drain.cross c = 0 := fun _ => rfl
  have ready : ∀ c, w.coros c ≠ .done → w.drain.ready c = w.ready c + w.cross c := by
    intro c alive
    have resumable : w.resumable (some c) = true := by simp [World.resumable, alive]
    simp only [World.ready, World.cross, World.drain, List.count_append, List.count_filter resumable]
  refine ⟨fun c => ?_, tokens.awaiter, fun b gone => ?_, tokens.nodup, tokens.running,
    fun _ => tokens.idle (by simp [World.userCode, here])⟩
  · cases coro : w.coros c with
    | suspended b =>
      obtain ⟨⟨aw, mine, handle⟩, one, empty⟩ := (tokens.held c).suspended coro
      refine .of_suspended coro mine handle ?_ rfl
      rw [flying, ready c (by simp [coro])]
      omega
    | parked =>
      refine .of_parked coro ?_
      rw [cross, ready c (by simp [coro])]
      exact (tokens.held c).parked coro
    | done => exact .of_done coro
    | running =>
      obtain ⟨no_entry, no_post⟩ := (tokens.held c).busy (Or.inr coro)
      exact .of_running coro (by rw [ready c (by simp [coro]), no_entry, no_post]) rfl
    | absent =>
      obtain ⟨no_entry, no_post⟩ := (tokens.held c).busy (Or.inl coro)
      have same : w.drain.coros c = .absent := coro
      unfold World.Held
      rw [same]
      exact ⟨by rw [ready c (by simp [coro]), no_entry, no_post], rfl⟩
  · rw [flying, tokens.freed b gone]

theorem World.postable_cases {c : Nat} (postable : w.postable (some c) = true) :
    w.coros c = .done ∨ w.coros c = .parked ∧ w.ready c = 0 ∧ w.cross c = 0 := by
  simpa only [World.postable, decide_eq_true_iff] using postable

/-- A handle that may be posted is added to `ready_` or to `cross_`. -/
theorem Tokens.posted (tokens : Tokens w) {h : Handle} (postable : w.postable h = true)
    (coros : w'.coros = w.coros) (awaiters : w'.awaiters = w.awaiters) (suspensions : w'.suspensions = w.suspensions)
    (stack : w'.stack = w.stack) (flying : ∀ b, w'.flying (.awaiter b) = w.flying (.awaiter b))
    (idle : w'.userCode = w.userCode) (others : ∀ c, h ≠ some c → w'.ready c = w.ready c ∧ w'.cross c = w.cross c)
    (more : ∀ c, h = some c → w'.ready c + w'.cross c = w.ready c + w.cross c + 1) : Tokens w' where
  held c := by
    by_cases mine : h = some c
    · rw [mine] at postable
      rcases World.postable_cases postable with ended | ⟨waits, no_entry, no_post⟩
      · exact .of_done (by rw [coros, ended])
      · refine .of_parked (by rw [coros, waits]) ?_
        have one := more c mine
        omega
    · obtain ⟨ready, cross⟩ := others c mine
      exact (tokens.held c).congr (by rw [coros]) ready cross fun b _ => ⟨by rw [awaiters], flying b⟩
  awaiter b aw here := by
    rw [awaiters] at here
    rw [suspensions, coros]
    exact tokens.awaiter b aw here
  freed b gone := by
    rw [awaiters] at gone
    rw [flying, tokens.freed b gone]
  nodup := by
    rw [stack]
    exact tokens.nodup
  running c := by
    rw [stack, coros]
    exact tokens.running c
  idle outside := by
    rw [stack]
    exact tokens.idle (idle.symm.trans outside)

theorem Goto.stack_nil {pc : Pc} (goto : Goto w a pc) (tokens : Tokens w) : w.stack = [] := by
  cases goto with
  | retTask empty | retCoro empty | raise empty => exact empty
  | _ => exact tokens.idle (by simp [World.userCode, *])

theorem Rearms.stack_nil {watcher : UserData} {pc : Pc} (rearms : Rearms w a watcher pc) (tokens : Tokens w) :
    w.stack = [] := by
  cases rearms with
  | timersRun empty => exact empty
  | _ => exact tokens.idle (by simp [World.userCode, *])

theorem Rearms.pass_awaiter {watcher : UserData} {pc : Pc} (rearms : Rearms w a watcher pc) (b : Nat) :
    World.flying { w with pc := pc } (.awaiter b) = w.flying (.awaiter b) := by
  cases rearms with
  | eventfd here _ at_i data | timerError here _ at_i data => exact World.flying_take_other here at_i (by simp [data])
  | watch here | startTimers here | timersRun _ here => exact World.flying_congr rfl (by rw [here]; rfl)

theorem Rearms.flying_awaiter {watcher : UserData} {pc : Pc} (rearms : Rearms w a watcher pc) (b : Nat) :
    World.flying { w with ring := w.ring.push ⟨.read 8, watcher⟩, pc := pc } (.awaiter b) = w.flying (.awaiter b) := by
  have other : watcher ≠ .awaiter b := by
    cases rearms <;> simp
  rw [← rearms.pass_awaiter b]
  exact World.flying_push_other (w := { w with pc := pc }) rfl rfl other

/-- No step has undefined behaviour. -/
theorem Move.alive (move : Move w a w') (met : orderly w a = true) (tokens : Tokens w) (alive : w.fault = none) :
    w'.fault = none := by
  cases move with
  | @resumeFreed c _ _ _ _ waits gone =>
    obtain ⟨⟨aw, mine, _⟩, _⟩ := (tokens.held c).suspended waits
    rw [gone] at mine
    cases mine
  | @resumeBad c _ _ queue bad =>
    have no_entry := ((tokens.held c).busy bad).1
    rw [World.ready_cons queue c, if_pos rfl] at no_entry
    omega
  | @completionFreed _ _ b _ here _ at_i data gone =>
    have none_left := tokens.freed b gone
    rw [World.flying_take (.awaiter b) here at_i, if_pos data] at none_left
    omega
  | suspendNull _ _ full =>
    have room : w.ring.pending < w.ring.entries := by simpa [orderly] using met
    omega
  | _ => exact alive

theorem Move.tokens (move : Move w a w') (within : w.pc.Within w.ring.cq.length) (met : orderly w a = true)
    (alive : w'.fault = none) (tokens : Tokens w) : Tokens w' := by
  have nobody (outside : w.userCode = false) : w.stack = [] := tokens.idle outside
  cases move with
  | goto goto =>
    exact tokens.steady rfl rfl rfl rfl (fun _ _ => rfl) (fun _ => rfl) (fun _ => goto.flying) fun _ => goto.stack_nil tokens
  | rearm rearms =>
    exact tokens.steady rfl rfl rfl rfl (fun _ _ => rfl) (fun _ => rfl) rearms.flying_awaiter
      fun _ => rearms.stack_nil tokens
  | rearmFull rearms =>
    exact tokens.steady rfl rfl rfl rfl (fun _ _ => rfl) (fun _ => rfl) rearms.pass_awaiter
      fun _ => rearms.stack_nil tokens
  | drain here => exact tokens.drain here
  | store here | runTask here =>
    exact tokens.steady rfl rfl rfl rfl (fun _ _ => rfl) (fun _ => rfl)
      (fun _ => World.flying_congr rfl (by rw [here]; rfl)) fun _ => nobody (by simp [World.userCode, here])
  | @skip h rest here queue ended =>
    refine tokens.steady rfl rfl rfl rfl (fun c alive => ?_) (fun _ => rfl) (fun _ => rfl) nobody
    have other : h ≠ some c := by
      rintro rfl
      simp [World.resumable, alive] at ended
    rw [World.ready_cons queue c, if_neg other]
    rfl
  | resumeIo here queue waits mine => exact tokens.resumeIo _ here queue waits
  | resumeFreed | resumeBad | completionFreed | suspendNull => cases alive
  | resumeParked here queue waits => exact tokens.resumeParked here queue waits
  | submit here =>
    refine tokens.steady rfl rfl rfl rfl (fun _ _ => rfl) (fun _ => rfl) (fun _ => ?_)
      fun _ => nobody (by simp [World.userCode, here])
    exact World.flying_congr Ring.tagged_submit (by rw [here, Ring.cq_submit]; rfl)
  | null here _ at_i data =>
    exact tokens.steady rfl rfl rfl rfl (fun _ _ => rfl) (fun _ => rfl)
      (fun _ => World.flying_take_other here at_i (by simp [data])) fun _ => nobody (by simp [World.userCode, here])
  | timers here _ at_i data =>
    exact tokens.steady rfl rfl rfl rfl (fun _ _ => rfl) (fun _ => rfl)
      (fun _ => World.flying_take_other here at_i (by simp [data])) fun _ => nobody (by simp [World.userCode, here])
  | completion here _ at_i data mine =>
    rw [if_pos (tokens.resumable mine)]
    exact tokens.complete _ here at_i data mine
  | advance here ended =>
    exact tokens.steady rfl rfl rfl rfl (fun _ _ => rfl) (fun _ => rfl)
      (fun _ => World.flying_advance within here ended) fun _ => nobody (by simp [World.userCode, here])
  | spawn user fresh => exact tokens.spawn user fresh
  | suspend user top => exact tokens.suspend user top
  | park user top => exact tokens.leave user top (Or.inl rfl)
  | finish user top => exact tokens.leave user top (Or.inr rfl)
  | @selfPost h =>
    refine tokens.posted met rfl rfl rfl rfl (fun _ => rfl) rfl (fun c other => ⟨?_, rfl⟩) fun c mine => ?_
    · rw [World.ready_append (w := w) rfl, if_neg other, Nat.add_zero]
    · rw [World.ready_append (w := w) rfl, if_pos mine]
      show w.ready c + 1 + w.cross c = w.ready c + w.cross c + 1
      omega
  | selfStop =>
    refine tokens.steady rfl rfl rfl rfl (fun _ _ => rfl) (fun _ => rfl) (fun b => ?_) nobody
    have pushed : World.flying { w with ring := w.ring.push ⟨.nop, .null⟩ } (.awaiter b) = w.flying (.awaiter b) :=
      World.flying_push_other (w := w) rfl rfl (by simp)
    rw [← pushed]
    exact World.flying_congr Ring.tagged_submit (by rw [Ring.cq_submit])
  | @post t h =>
    refine tokens.posted met rfl rfl rfl rfl (fun _ => rfl) rfl (fun c other => ⟨rfl, ?_⟩) fun c mine => ?_
    · rw [World.cross_append (w := w) rfl, if_neg other, Nat.add_zero]
    · rw [World.cross_append (w := w) rfl, if_pos mine]
      rfl
  | consume oldest =>
    exact tokens.steady rfl rfl rfl rfl (fun _ _ => rfl) (fun _ => rfl)
      (fun _ => World.flying_congr (Ring.tagged_consume oldest) rfl) nobody
  | wakeRead running data | ioDone running data =>
    exact tokens.steady rfl rfl rfl rfl (fun _ _ => rfl) (fun _ => rfl)
      (fun _ => World.flying_complete within running data.symm) nobody
  | otherDone running =>
    exact tokens.steady rfl rfl rfl rfl (fun _ _ => rfl) (fun _ => rfl)
      (fun _ => World.flying_complete within running rfl) nobody
  | _ => exact ⟨tokens.held, tokens.awaiter, tokens.freed, tokens.nodup, tokens.running, tokens.idle⟩

end CoroNet.Scheduler
