import CoroNet.EventLoop.Threads

namespace CoroNet.EventLoop

open Coroutine (Kind Promise Fault)
open Function

variable {E V A : Type} {S : Kind → Type} {code : Code E V A S} {w w' : World E V A S} {j k : Kind} {t b p : Nat}
  {callers : Callers E V S k} {frames : List Nat} {handlers : Nat → Handler E V A S} {f g : Frame E V S}
  {s : S k} {rest : List (Active S)} {heap heap' : Nat → Option (Frame E V S)}

/-- Only frames of handler `t` differ. -/
def Touches (heap heap' : Nat → Option (Frame E V S)) (t : Nat) : Prop :=
  ∀ c, heap' c = heap c ∨ (∀ g, heap c = some g → g.owner = t) ∧ ∀ g, heap' c = some g → g.owner = t

theorem Touches.refl (heap : Nat → Option (Frame E V S)) (t : Nat) : Touches heap heap t := fun _ => Or.inl rfl

theorem Touches.update {x : Option (Frame E V S)} (touches : Touches heap heap' t)
    (before : ∀ g, heap b = some g → g.owner = t) (after : ∀ g, x = some g → g.owner = t) :
    Touches heap (update heap' b x) t := by
  intro c
  by_cases same : c = b
  · subst same
    rw [update_self]
    exact Or.inr ⟨before, after⟩
  · rw [update_of_ne same]
    exact touches c

/-- A step stays with handler `t`. -/
structure Within (w w' : World E V A S) (t : Nat) : Prop where
  heap : Touches w.heap w'.heap t
  shims : ∀ t', t' ≠ t → w'.shims t' = w.shims t'
  stack : ∀ x ∈ w.stack, x ∈ w'.stack ∨ ∀ g, w.heap x.b = some g → g.owner = t
  awaiters : ∀ a awaiter, w.awaiters a = some awaiter →
    w'.awaiters a = some awaiter ∧ (a ∈ w'.inflight ↔ a ∈ w.inflight) ∨
      ∀ g, w.heap awaiter.handle = some g → g.owner = t
  ready : ∀ c, (c ∈ w'.readyQueue ↔ c ∈ w.readyQueue) ∨ ∀ g, w.heap c = some g → g.owner = t

theorem Within.leaves (within : Within w w' t) {t' : Nat} (other : t' ≠ t) : Leaves w w' t' where
  heap := by
    intro c g owner
    rcases within.heap c with same | ⟨before, after⟩
    · rw [same]
    · exact ⟨fun here => absurd (owner.symm.trans (after g here)) other,
        fun here => absurd (owner.symm.trans (before g here)) other⟩
  shims := within.shims t' other
  stack := by
    intro x member ⟨g, here, owner⟩
    exact (within.stack x member).resolve_right fun all => other (owner.symm.trans (all g here))
  awaiters := by
    intro a awaiter g made here owner
    exact (within.awaiters a awaiter made).resolve_right fun all => other (owner.symm.trans (all g here))
  ready := by
    intro c g here owner
    exact (within.ready c).resolve_right fun all => other (owner.symm.trans (all g here))

/-- A step that leaves the suspended coroutines leaves the queues. -/
theorem Queued.keep (queued : Queued w)
    (kept : ∀ c g a k next, w.heap c = some g → g.point = .blocked a k next → w'.heap c = some g)
    (ready : w'.readyQueue = w.readyQueue) (inflight : w'.inflight = w.inflight) (awaiters : w'.awaiters = w.awaiters)
    (suspensions : w'.suspensions = w.suspensions) : Queued w' := by
  refine ⟨?_, ready ▸ queued.readyOnce, ?_, inflight ▸ queued.inflightOnce, suspensions ▸ awaiters ▸ queued.unused⟩
  · intro c member
    obtain ⟨g, a, k, next, here, point⟩ := queued.ready c (ready ▸ member)
    exact ⟨g, a, k, next, kept c g a k next here point, point⟩
  · intro a member
    obtain ⟨awaiter, g, k, next, made, here, point⟩ := queued.inflight a (inflight ▸ member)
    exact ⟨awaiter, g, k, next, awaiters ▸ made, kept _ g a k next here point, point⟩

theorem Represents.made (rep : Represents w handlers) {c : Nat} (here : w.heap c = some g) : c < w.frames := by
  by_contra later
  cases here.symm.trans (rep.fresh c (Nat.le_of_not_lt later))

/-- Of the frames of a handler that is executing the others wait for children. -/
theorem Executes.alone (at_top : Executes w handlers b s f callers frames) {c : Nat} (here : w.heap c = some g)
    (owner : g.owner = f.owner) : c = b ∨ ∃ child j k' next, g.point = .awaiting child j k' next := by
  rcases at_top.chain.waits (at_top.owned c g here owner) with same | ⟨_, g', child, j, k', next, there, waits⟩
  · exact Or.inl same
  · cases here.symm.trans there
    exact Or.inr ⟨child, j, k', next, waits⟩

/-- What a step of the coroutine on top of the stack leaves to all the others. -/
structure Acts (w w' : World E V A S) (t : Nat) : Prop where
  started : w'.started = w.started
  heap : Touches w.heap w'.heap t
  shims : ∀ t', t' ≠ t → w'.shims t' = w.shims t'
  awaiters : ∀ a awaiter, w.awaiters a = some awaiter →
    w'.awaiters a = some awaiter ∧ (a ∈ w'.inflight ↔ a ∈ w.inflight)
  ready : w'.readyQueue = w.readyQueue
  fresh : ∀ n, w'.frames ≤ n → w'.heap n = none

theorem Represents.act {h : Handler E V A S} (rep : Represents w handlers) (tops : List (Active S)) (alive : w.aborted = false)
    (top : w.stack = ⟨b, k, s⟩ :: rest) (at_top : Executes w handlers b s f callers frames) (acts : Acts w w' f.owner)
    (stack : w'.stack = tops ++ rest) (single : (tops.map Active.b).Nodup)
    (running : ∀ x ∈ tops, ∃ g, w'.heap x.b = some g ∧ g.point = .running ∧ g.owner = f.owner)
    (acting : ∃ frames', Stands w' f.owner h frames' ∧
      ∀ c g, w'.heap c = some g → g.owner = f.owner → c ∈ frames')
    (queued : (∀ c g a k next, w.heap c = some g → g.point = .blocked a k next → w'.heap c = some g) → Queued w') :
    Represents w' (update handlers f.owner h) := by
  have once := rep.once
  rw [top, List.map_cons, List.nodup_cons] at once
  -- the other coroutines on the stack are of other handlers
  have others : ∀ x ∈ rest, ∃ g, w.heap x.b = some g ∧ g.point = .running ∧ g.owner ≠ f.owner := by
    intro x member
    obtain ⟨g, here, point⟩ := rep.running x (top ▸ List.mem_cons_of_mem _ member)
    refine ⟨g, here, point, fun owner => ?_⟩
    rcases at_top.alone here owner with same | ⟨child, j, k', next, waits⟩
    · exact once.1 (List.mem_map.mpr ⟨x, member, same⟩)
    · cases point.symm.trans waits
  have kept : ∀ c g, w.heap c = some g → g.owner ≠ f.owner → w'.heap c = some g := fun c g here owner =>
    ((acts.heap c).resolve_right fun all => owner (all.1 g here)).trans here
  have within : Within w w' f.owner := by
    refine ⟨acts.heap, acts.shims, fun x member => ?_, fun a awaiter made => Or.inl (acts.awaiters a awaiter made),
      fun c => Or.inl (by rw [acts.ready])⟩
    rw [top] at member
    rcases List.mem_cons.mp member with rfl | later
    · refine Or.inr fun g here => ?_
      cases at_top.here.symm.trans here
      rfl
    · exact Or.inl (stack ▸ List.mem_append_right _ later)
  refine ⟨rep.only alive acts.started acting fun t' => within.leaves, fun c g here => ?_, fun x member => ?_, ?_,
    queued fun c g a k' next here point => kept c g here fun owner => ?_, acts.fresh⟩
  · rw [acts.started]
    rcases acts.heap c with same | ⟨_, after⟩
    · exact rep.owners c g (same.symm.trans here)
    · exact after g here ▸ at_top.owner
  · rw [stack] at member
    rcases List.mem_append.mp member with new | later
    · obtain ⟨g, here, point, _⟩ := running x new
      exact ⟨g, here, point⟩
    · obtain ⟨g, here, point, owner⟩ := others x later
      exact ⟨g, kept _ g here owner, point⟩
  · rw [stack, List.map_append]
    refine List.nodup_append.mpr ⟨single, once.2, fun c new c' later => ?_⟩
    rintro rfl
    obtain ⟨x, inside, rfl⟩ := List.mem_map.mp new
    obtain ⟨y, inside', same⟩ := List.mem_map.mp later
    obtain ⟨g, here, _, owner⟩ := running x inside
    obtain ⟨g', here', _, owner'⟩ := others y inside'
    have there := kept _ g' here' owner'
    rw [same] at there
    cases here.symm.trans there
    exact owner' owner
  · rcases at_top.alone here owner with rfl | ⟨child, j, k', next, waits⟩
    · cases at_top.here.symm.trans here
      cases at_top.point.symm.trans point
    · cases waits.symm.trans point

theorem Executes.own (at_top : Executes w handlers b s f callers frames) : ∀ g, w.heap b = some g → g.owner = f.owner := by
  intro g here
  cases at_top.here.symm.trans here
  rfl

theorem Executes.inside (at_top : Executes w handlers b s f callers frames) : b ∈ frames :=
  at_top.chain.top.choose_spec.2.2.2

/-- The coroutine on the stack goes on in its body. -/
theorem Represents.goOn {s' : S k} (rep : Represents w handlers) (alive : w.aborted = false)
    (top : w.stack = ⟨b, k, s⟩ :: rest) (at_top : Executes w handlers b s f callers frames) :
    Represents { w with stack := ⟨b, k, s'⟩ :: w.stack.tail } (update handlers f.owner (.exec s' callers)) := by
  have chain : Chain { w with stack := ⟨b, k, s'⟩ :: w.stack.tail } f.owner b callers frames :=
    at_top.chain.congr (fun g here => ⟨g.point, here⟩) (fun _ _ _ => rfl) rfl
  refine rep.act [⟨b, k, s'⟩] alive top at_top
    ⟨rfl, .refl _ _, fun _ _ => rfl, fun _ _ made => ⟨made, Iff.rfl⟩, rfl, rep.fresh⟩ ?_ (List.nodup_singleton _) ?_ ?_ ?_
  · rw [top]
    rfl
  · intro x member
    cases List.mem_singleton.mp member
    exact ⟨f, at_top.here, at_top.point, rfl⟩
  · exact ⟨frames, .exec at_top.here at_top.point chain List.mem_cons_self, at_top.owned⟩
  · exact fun kept => rep.queued.keep kept rfl rfl rfl rfl

/-- A child is awaited: it executes on top of its caller. -/
theorem Represents.await {child : S j} {next : Except E (j.Ret V) → S k} (rep : Represents w handlers)
    (alive : w.aborted = false) (top : w.stack = ⟨b, k, s⟩ :: rest)
    (at_top : Executes w handlers b s f callers frames) :
    Represents (w.awaited b f child next) (update handlers f.owner (.exec child (.caller next callers))) := by
  have older := rep.made at_top.here
  have apart : b ≠ w.frames := Nat.ne_of_lt older
  have atNew : (w.awaited b f child next).heap w.frames =
      some { promise := .new j, continuation := .task b, owner := f.owner, point := .running } := update_self ..
  have atCaller : (w.awaited b f child next).heap b = some { f with point := .awaiting w.frames j k next } :=
    (update_of_ne apart ..).trans (update_self ..)
  have elsewhere : ∀ c, c ≠ b → c ≠ w.frames → (w.awaited b f child next).heap c = w.heap c := fun c other new =>
    (update_of_ne new ..).trans (update_of_ne other ..)
  have touches : Touches w.heap (w.awaited b f child next).heap f.owner := by
    refine .update (.update (.refl _ _) at_top.own fun g eq => ?_) (fun g here => ?_) fun g eq => ?_
    · cases Option.some.inj eq
      rfl
    · exact absurd (rep.made here) (Nat.lt_irrefl _)
    · cases Option.some.inj eq
      rfl
  have below : Chain (w.awaited b f child next) f.owner b callers frames := by
    refine at_top.chain.congr (fun g here => ?_) (fun c _ less => ?_) rfl
    · cases here.symm.trans at_top.here
      exact ⟨_, atCaller⟩
    · exact elsewhere c (Nat.ne_of_lt less) (Nat.ne_of_lt (Nat.lt_trans less older))
  refine rep.act [⟨w.frames, j, child⟩] alive top at_top
    ⟨rfl, touches, fun _ _ => rfl, fun _ _ made => ⟨made, Iff.rfl⟩, rfl, fun n above => ?_⟩ ?_ (List.nodup_singleton _)
    (fun x member => ?_) ⟨w.frames :: frames, .exec atNew rfl (.child atNew rfl rfl rfl atCaller rfl older below)
      List.mem_cons_self, fun c g here owner => ?_⟩ fun kept => rep.queued.keep kept rfl rfl rfl rfl
  · have later : w.frames < n := above
    rw [elsewhere n (by omega) (Nat.ne_of_gt later)]
    exact rep.fresh n (Nat.le_of_lt later)
  · show ⟨w.frames, j, child⟩ :: w.stack.tail = _
    rw [top]
    rfl
  · cases List.mem_singleton.mp member
    exact ⟨_, atNew, rfl, rfl⟩
  · by_cases new : c = w.frames
    · exact new ▸ List.mem_cons_self
    · refine List.mem_cons_of_mem _ ?_
      by_cases caller : c = b
      · exact caller ▸ at_top.inside
      · exact at_top.owned c g ((elsewhere c caller new).symm.trans here) owner

/-- A coroutine ends: its caller goes on in its place. -/
theorem Represents.continue {next : Except E (k.Ret V) → S j} {outer : Callers E V S j} {result : Except E (k.Ret V)}
    (rep : Represents w handlers) (alive : w.aborted = false) (top : w.stack = ⟨b, k, s⟩ :: rest)
    (at_top : Executes w handlers b s f (.caller next outer) (b :: frames)) (caller : w.heap p = some g)
    (owner : g.owner = f.owner) (older : p < b) (outer_chain : Chain w f.owner p outer frames) :
    Represents (w.continued b p g (next result)) (update handlers f.owner (.exec (next result) outer)) := by
  have apart : p ≠ b := Nat.ne_of_lt older
  have atCaller : (w.continued b p g (next result)).heap p = some { g with point := .running } :=
    (update_of_ne apart ..).trans (update_self ..)
  have gone : (w.continued b p g (next result)).heap b = none := update_self ..
  have elsewhere : ∀ c, c ≠ p → c ≠ b → (w.continued b p g (next result)).heap c = w.heap c := fun c other new =>
    (update_of_ne new ..).trans (update_of_ne other ..)
  have touches : Touches w.heap (w.continued b p g (next result)).heap f.owner := by
    refine .update (.update (.refl _ _) (fun g' here => ?_) fun g' eq => ?_) at_top.own nofun
    · cases caller.symm.trans here
      exact owner
    · cases Option.some.inj eq
      exact owner
  have chain : Chain (w.continued b p g (next result)) f.owner p outer frames := by
    refine outer_chain.congr (fun g' here => ?_) (fun c _ less => ?_) rfl
    · cases here.symm.trans caller
      exact ⟨_, atCaller⟩
    · exact elsewhere c (Nat.ne_of_lt less) (Nat.ne_of_lt (Nat.lt_trans less older))
  refine rep.act [⟨p, j, next result⟩] alive top at_top
    ⟨rfl, touches, fun _ _ => rfl, fun _ _ made => ⟨made, Iff.rfl⟩, rfl, fun n above => ?_⟩ ?_ (List.nodup_singleton _)
    (fun x member => ?_) ⟨frames, .exec atCaller rfl chain List.mem_cons_self, fun c g' here same => ?_⟩
    fun kept => rep.queued.keep kept rfl rfl rfl rfl
  · have made := rep.made caller
    have made' := rep.made at_top.here
    have later : w.frames ≤ n := above
    rw [elsewhere n (by omega) (by omega)]
    exact rep.fresh n above
  · show ⟨p, j, next result⟩ :: w.stack.tail = _
    rw [top]
    rfl
  · cases List.mem_singleton.mp member
    exact ⟨_, atCaller, rfl, owner⟩
  · have other : c ≠ b := by
      rintro rfl
      cases gone.symm.trans here
    by_cases at_caller : c = p
    · exact at_caller ▸ outer_chain.top.choose_spec.2.2.2
    · exact (List.mem_cons.mp (at_top.owned c g' ((elsewhere c at_caller other).symm.trans here) same)).resolve_left other

/-- A handler returns: nothing of it is left. -/
theorem Represents.return {s : S .void} (rep : Represents w handlers) (alive : w.aborted = false)
    (top : w.stack = ⟨b, .void, s⟩ :: rest) (at_top : Executes w handlers b s f .nobody [b]) :
    Represents (w.returned b f.owner) (update handlers f.owner (.ended (.ok ()))) := by
  have gone : (w.returned b f.owner).heap b = none := update_self ..
  have elsewhere : ∀ c, c ≠ b → (w.returned b f.owner).heap c = w.heap c := fun c other => update_of_ne other ..
  refine rep.act [] alive top at_top
    ⟨rfl, .update (.refl _ _) at_top.own nofun, fun _ other => update_of_ne other .., fun _ _ made => ⟨made, Iff.rfl⟩, rfl,
      fun n above => ?_⟩ (congrArg List.tail top) List.nodup_nil nofun
    ⟨[], .returned (update_self ..), fun c g here owner => ?_⟩ fun kept => rep.queued.keep kept rfl rfl rfl rfl
  · have later : w.frames ≤ n := above
    have made := rep.made at_top.here
    rw [elsewhere n (by omega)]
    exact rep.fresh n above
  · have other : c ≠ b := by
      rintro rfl
      cases gone.symm.trans here
    exact absurd (List.mem_singleton.mp (at_top.owned c g ((elsewhere c other).symm.trans here) owner)) other

/-- An exception comes out of a handler. -/
theorem Represents.throw {s : S .void} {e : E} (rep : Represents w handlers) (alive : w.aborted = false)
    (top : w.stack = ⟨b, .void, s⟩ :: rest) (at_top : Executes w handlers b s f .nobody [b]) :
    Represents (w.threw b f e) (update handlers f.owner (.ended (.error e))) := by
  have elsewhere : ∀ c, c ≠ b → (w.threw b f e).heap c = w.heap c := fun c other => update_of_ne other ..
  refine rep.act [] alive top at_top
    ⟨rfl, .update (.refl _ _) at_top.own fun g eq => ?_, fun _ _ => rfl, fun _ _ made => ⟨made, Iff.rfl⟩, rfl,
      fun n above => ?_⟩ (congrArg List.tail top) List.nodup_nil nofun
    ⟨[b], .threw rfl, fun c g here owner => ?_⟩ fun kept => rep.queued.keep kept rfl rfl rfl rfl
  · cases Option.some.inj eq
    rfl
  · have later : w.frames ≤ n := above
    have made := rep.made at_top.here
    rw [elsewhere n (by omega)]
    exact rep.fresh n above
  · by_cases other : c = b
    · exact List.mem_singleton.mpr other
    · exact at_top.owned c g ((elsewhere c other).symm.trans here) owner

/-- A coroutine is suspended on an operation. -/
theorem Represents.suspend {op : A} {next : Answer → S k} (rep : Represents w handlers)
    (alive : w.aborted = false) (top : w.stack = ⟨b, k, s⟩ :: rest)
    (at_top : Executes w handlers b s f callers frames) :
    Represents (w.suspended b f op next) (update handlers f.owner (.blocked op next callers)) := by
  have blocked : (w.suspended b f op next).heap b = some { f with point := .blocked w.suspensions k next } :=
    update_self ..
  have elsewhere : ∀ c, c ≠ b → (w.suspended b f op next).heap c = w.heap c := fun c other => update_of_ne other ..
  have made : (w.suspended b f op next).awaiters w.suspensions = some { op := op, handle := b } := update_self ..
  have older : ∀ a awaiter, w.awaiters a = some awaiter → a ≠ w.suspensions := by
    rintro a awaiter there rfl
    cases there.symm.trans (rep.queued.unused _ (Nat.le_refl _))
  have chain : Chain (w.suspended b f op next) f.owner b callers frames := by
    refine at_top.chain.congr (fun g here => ?_) (fun c _ less => elsewhere c (Nat.ne_of_lt less)) rfl
    cases here.symm.trans at_top.here
    exact ⟨_, blocked⟩
  have not_ready : b ∉ w.readyQueue := by
    intro member
    obtain ⟨g, a, k', next', here, point⟩ := rep.queued.ready b member
    cases here.symm.trans at_top.here
    cases at_top.point.symm.trans point
  have inside : w.suspensions ∈ (w.suspended b f op next).inflight :=
    List.mem_append_right _ (List.mem_singleton_self _)
  have stands : Stands (w.suspended b f op next) f.owner (.blocked op next callers) frames :=
    .blocked blocked rfl chain made rfl (Or.inl ⟨inside, not_ready⟩)
  have kept_awaiter : ∀ a awaiter, w.awaiters a = some awaiter →
      (w.suspended b f op next).awaiters a = some awaiter := fun a awaiter there =>
    (update_of_ne (older a awaiter there) ..).trans there
  have fresh : w.suspensions ∉ w.inflight := by
    intro member
    obtain ⟨awaiter, g, k', next', there, _⟩ := rep.queued.inflight _ member
    exact older _ _ there rfl
  refine rep.act [] alive top at_top ⟨rfl, .update (.refl _ _) at_top.own fun g eq => ?_, fun _ _ => rfl,
      fun a awaiter there => ⟨kept_awaiter a awaiter there, ?_⟩, rfl, fun n above => ?_⟩
    (congrArg List.tail top) List.nodup_nil nofun ⟨frames, stands, fun c g here owner => ?_⟩ fun kept => ?_
  · cases Option.some.inj eq
    rfl
  · show a ∈ w.inflight ++ [w.suspensions] ↔ a ∈ w.inflight
    simp [older a awaiter there]
  · have later : w.frames ≤ n := above
    have made := rep.made at_top.here
    rw [elsewhere n (by omega)]
    exact rep.fresh n above
  · by_cases other : c = b
    · exact other ▸ at_top.inside
    · exact at_top.owned c g ((elsewhere c other).symm.trans here) owner
  · refine ⟨fun c member => ?_, rep.queued.readyOnce, fun a member => ?_, ?_, fun a above => ?_⟩
    · obtain ⟨g, a, k', next', here, point⟩ := rep.queued.ready c member
      exact ⟨g, a, k', next', kept c g a k' next' here point, point⟩
    · rcases List.mem_append.mp member with before | new
      · obtain ⟨awaiter, g, k', next', there, here, point⟩ := rep.queued.inflight a before
        exact ⟨awaiter, g, k', next', kept_awaiter a awaiter there, kept _ g a k' next' here point, point⟩
      · cases List.mem_singleton.mp new
        exact ⟨_, _, k, next, made, blocked, rfl⟩
    · exact List.nodup_append.mpr ⟨rep.queued.inflightOnce, List.nodup_singleton _, fun a before a' new same =>
        fresh (List.mem_singleton.mp new ▸ same ▸ before)⟩
    · have later : w.suspensions + 1 ≤ a := above
      refine (update_of_ne (by omega) ..).trans (rep.queued.unused a (by omega))

/-- A task is given to `spawn`, from the loop or from a handler. -/
theorem Represents.spawn (rep : Represents w handlers) (alive : w.aborted = false) (task : S .void) :
    Represents (w.spawned task) (update handlers w.started.length (.begin task)) := by
  have made : (w.spawned task).heap w.frames = some
      { promise := .new .void, continuation := .shim w.started.length, owner := w.started.length, point := .running } :=
    update_self ..
  have elsewhere : ∀ c, c ≠ w.frames → (w.spawned task).heap c = w.heap c := fun c other => update_of_ne other ..
  have unmade : w.heap w.frames = none := rep.fresh _ (Nat.le_refl _)
  have kept : ∀ c g, w.heap c = some g → (w.spawned task).heap c = some g := fun c g here =>
    (elsewhere c (Nat.ne_of_lt (rep.made here))).trans here
  have within : Within w (w.spawned task) w.started.length := by
    refine ⟨.update (.refl _ _) (fun g here => ?_) fun g eq => ?_, fun _ other => update_of_ne other ..,
      fun x member => Or.inl (List.mem_cons_of_mem _ member), fun _ _ made => Or.inl ⟨made, Iff.rfl⟩,
      fun _ => Or.inl Iff.rfl⟩
    · cases unmade.symm.trans here
    · cases Option.some.inj eq
      rfl
  have length : (w.spawned task).started.length = w.started.length + 1 := List.length_append
  refine ⟨fun t below => ?_, fun c g here => ?_, fun x member => ?_, ?_,
    rep.queued.keep (fun c g _ _ _ here _ => kept c g here) rfl rfl rfl rfl, fun n above => ?_⟩
  · by_cases new : t = w.started.length
    · subst new
      rw [update_self]
      refine ⟨[w.frames], .exec made rfl (.root made rfl rfl rfl (update_self ..)) List.mem_cons_self,
        fun c g here owner => ?_⟩
      by_contra other
      have before := (elsewhere c fun same => other (List.mem_singleton.mpr same)).symm.trans here
      exact absurd (owner ▸ rep.owners c g before) (Nat.lt_irrefl _)
    · rw [update_of_ne new]
      have leaves := within.leaves new
      obtain ⟨frames, stands, owned⟩ := rep.stands t (by omega)
      exact ⟨frames, leaves.stands alive stands, fun c g here owner => owned c g ((leaves.heap c g owner).mp here) owner⟩
  · rw [length]
    by_cases new : c = w.frames
    · subst new
      cases made.symm.trans here
      exact Nat.lt_succ_self _
    · exact Nat.lt_succ_of_lt (rep.owners c g ((elsewhere c new).symm.trans here))
  · rcases List.mem_cons.mp member with rfl | before
    · exact ⟨_, made, rfl⟩
    · obtain ⟨g, here, point⟩ := rep.running x before
      exact ⟨g, kept _ g here, point⟩
  · refine List.nodup_cons.mpr ⟨fun member => ?_, rep.once⟩
    obtain ⟨x, inside, same⟩ := List.mem_map.mp member
    obtain ⟨g, here, _⟩ := rep.running x inside
    exact absurd (same ▸ rep.made here) (Nat.lt_irrefl _)
  · have later : w.frames + 1 ≤ n := above
    rw [elsewhere n (by omega)]
    exact rep.fresh n (by omega)

/-- The coroutine of a completed operation is resumed. -/
theorem Represents.answer {a : Nat} {next : Answer → S k} {awaiter : Awaiter A} {others : List Nat}
    (rep : Represents w handlers) (alive : w.aborted = false) (idle : w.stack = []) (turn : w.readyQueue = b :: others)
    (waits : Waits w handlers b a next f awaiter callers frames) :
    Represents (w.answered others b a f next awaiter)
      (update handlers f.owner (.exec (next awaiter.result) callers)) := by
  have running : (w.answered others b a f next awaiter).heap b = some { f with point := .running } :=
    update_self ..
  have elsewhere : ∀ c, c ≠ b → (w.answered others b a f next awaiter).heap c = w.heap c := fun c other =>
    update_of_ne other ..
  have own : ∀ g, w.heap b = some g → g.owner = f.owner := by
    intro g here
    cases waits.here.symm.trans here
    rfl
  have landed : a ∉ w.inflight :=
    (waits.place.resolve_left fun flying => flying.2 (turn ▸ List.mem_cons_self)).1
  have once := rep.queued.readyOnce
  rw [turn, List.nodup_cons] at once
  have within : Within w (w.answered others b a f next awaiter) f.owner := by
    refine ⟨.update (.refl _ _) own fun g eq => ?_, fun _ _ => rfl, fun x member => ?_, fun a' awaiter' made => ?_,
      fun c => ?_⟩
    · cases Option.some.inj eq
      rfl
    · rw [idle] at member
      exact absurd member List.not_mem_nil
    · by_cases same : a' = a
      · subst same
        cases waits.made.symm.trans made
        exact Or.inr fun g here => own g (waits.handle ▸ here)
      · exact Or.inl ⟨(update_of_ne same ..).trans made, Iff.rfl⟩
    · by_cases same : c = b
      · exact Or.inr (same ▸ own)
      · refine Or.inl ?_
        show c ∈ others ↔ c ∈ w.readyQueue
        rw [turn, List.mem_cons, or_iff_right same]
  have chain : Chain (w.answered others b a f next awaiter) f.owner b callers frames := by
    refine waits.chain.congr (fun g here => ?_) (fun c _ less => elsewhere c (Nat.ne_of_lt less)) rfl
    cases here.symm.trans waits.here
    exact ⟨_, running⟩
  refine ⟨rep.only alive rfl ⟨frames, .exec running rfl chain (List.mem_singleton_self _), fun c g here owner => ?_⟩
      fun t' => within.leaves, fun c g here => ?_, fun x member => ?_, List.nodup_singleton _,
    ⟨fun c member => ?_, once.2, fun a' member => ?_, rep.queued.inflightOnce, fun a' above => ?_⟩, fun n above => ?_⟩
  · by_cases same : c = b
    · exact same ▸ waits.chain.top.choose_spec.2.2.2
    · exact waits.owned c g ((elsewhere c same).symm.trans here) owner
  · by_cases same : c = b
    · subst same
      cases running.symm.trans here
      exact waits.owner
    · exact rep.owners c g ((elsewhere c same).symm.trans here)
  · cases List.mem_singleton.mp member
    exact ⟨_, running, rfl⟩
  · obtain ⟨g, a', k', next', here, point⟩ := rep.queued.ready c (turn ▸ List.mem_cons_of_mem _ member)
    exact ⟨g, a', k', next', (elsewhere c fun same => once.1 (same ▸ member)).trans here, point⟩
  · have other : a' ≠ a := fun same => landed (same ▸ member)
    obtain ⟨awaiter', g, k', next', made, here, point⟩ := rep.queued.inflight a' member
    refine ⟨awaiter', g, k', next', (update_of_ne other ..).trans made, (elsewhere _ fun same => ?_).trans here, point⟩
    rw [same] at here
    cases here.symm.trans waits.here
    cases point.symm.trans waits.point
    exact other rfl
  · have unused := rep.queued.unused a' above
    by_cases same : a' = a
    · exact same ▸ update_self ..
    · exact (update_of_ne same ..).trans unused
  · have made := rep.made waits.here
    have later : w.frames ≤ n := above
    rw [elsewhere n (by omega)]
    exact rep.fresh n above

/-- An operation completes: its coroutine is ready, and no handler has moved. -/
theorem Represents.complete {a : Nat} {next : Answer → S k} {awaiter : Awaiter A} {r : Answer}
    (rep : Represents w handlers) (alive : w.aborted = false) (inside : a ∈ w.inflight)
    (waits : Waits w handlers b a next f awaiter callers frames) : Represents (w.completed a awaiter r) handlers := by
  have idle : b ∉ w.readyQueue := (waits.place.resolve_right fun landed => landed.1 inside).2
  have own : ∀ g, w.heap b = some g → g.owner = f.owner := by
    intro g here
    cases waits.here.symm.trans here
    rfl
  have landed : a ∉ w.inflight.erase a := rep.queued.inflightOnce.not_mem_erase
  have within : Within w (w.completed a awaiter r) f.owner := by
    refine ⟨.refl _ _, fun _ _ => rfl, fun x member => Or.inl member, fun a' awaiter' made => ?_, fun c => ?_⟩
    · by_cases same : a' = a
      · subst same
        cases waits.made.symm.trans made
        exact Or.inr fun g here => own g (waits.handle ▸ here)
      · exact Or.inl ⟨(update_of_ne same ..).trans made, List.mem_erase_of_ne same⟩
    · by_cases same : c = b
      · exact Or.inr (same ▸ own)
      · refine Or.inl ?_
        show c ∈ w.readyQueue ++ [awaiter.handle] ↔ c ∈ w.readyQueue
        simp [waits.handle, same]
  have chain : Chain (w.completed a awaiter r) f.owner b callers frames :=
    waits.chain.congr (fun g here => ⟨g.point, here⟩) (fun _ _ _ => rfl) rfl
  have queue : b ∈ (w.completed a awaiter r).readyQueue :=
    List.mem_append_right _ (List.mem_singleton.mpr waits.handle.symm)
  have made : (w.completed a awaiter r).awaiters a = some { awaiter with result := r } := update_self ..
  have here : (w.completed a awaiter r).heap b = some f := waits.here
  have stands := Stands.blocked here waits.point chain made waits.handle (Or.inr ⟨landed, queue⟩)
  have acting : ∃ frames, Stands (w.completed a awaiter r) f.owner (.blocked awaiter.op next callers) frames ∧
      ∀ c g, (w.completed a awaiter r).heap c = some g → g.owner = f.owner → c ∈ frames :=
    ⟨frames, stands, waits.owned⟩
  have started : (w.completed a awaiter r).started = w.started := rfl
  have moved := rep.only alive started acting fun t' => within.leaves
  rw [← waits.handler, update_eq_self] at moved
  refine ⟨moved, rep.owners, rep.running, rep.once, ⟨fun c member => ?_, ?_, fun a' member => ?_,
    rep.queued.inflightOnce.erase a, fun a' above => ?_⟩, rep.fresh⟩
  · rcases List.mem_append.mp member with before | new
    · exact rep.queued.ready c before
    · cases List.mem_singleton.mp new
      exact ⟨f, a, k, next, waits.handle ▸ waits.here, waits.point⟩
  · refine List.nodup_append.mpr ⟨rep.queued.readyOnce, List.nodup_singleton _, fun c before c' new same => idle ?_⟩
    exact waits.handle ▸ List.mem_singleton.mp new ▸ same ▸ before
  · have other : a' ≠ a := fun same => landed (same ▸ member)
    obtain ⟨awaiter', g, k', next', made, here, point⟩ := rep.queued.inflight a' (List.mem_of_mem_erase member)
    exact ⟨awaiter', g, k', next', (update_of_ne other ..).trans made, here, point⟩
  · have unused := rep.queued.unused a' above
    by_cases same : a' = a
    · subst same
      cases unused.symm.trans waits.made
    · exact (update_of_ne same ..).trans unused

end CoroNet.EventLoop
