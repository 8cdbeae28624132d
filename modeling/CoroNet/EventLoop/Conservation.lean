import CoroNet.EventLoop.Independence

namespace CoroNet.EventLoop

open Coroutine (Kind)
open Function Transition

variable {E V A : Type} {S : Kind → Type} {code : Code E V A S} {w : World E V A S} {k : Kind} {t b c : Nat}
  {callers : Callers E V S k} {frames : List Nat} {handlers : Nat → Handler E V A S} {f g : Frame E V S}

/-- The coroutines that operations in flight will make ready. -/
def World.waiting (w : World E V A S) : List (Option Nat) :=
  w.inflight.map fun a => (w.awaiters a).map Awaiter.handle

/-- What will be resumed: the coroutines on the stack, the ready ones, and
those that wait for an operation in flight. -/
def World.resumable (w : World E V A S) : List (Option Nat) :=
  (w.stack.map Active.b).map some ++ w.readyQueue.map some ++ w.waiting

/-- The call of `spawn` a handle goes back to. -/
def World.ownerOf (w : World E V A S) (handle : Option Nat) : Option Nat := do
  let f ← w.heap (← handle)
  return f.owner

/-- The handlers that have not returned. -/
def World.unfinished (w : World E V A S) : List Nat :=
  (List.range w.started.length).filter fun t => (w.shims t).isSome

def Frame.Waiting (f : Frame E V S) : Prop := ∃ child j k next, f.point = @Point.awaiting E V S child j k next

theorem Chain.shim (held : Chain w t b callers frames) : (w.shims t).isSome := by
  induction held with
  | root _ _ _ _ shim => exact Option.isSome_of_eq_some shim
  | child _ _ _ _ _ _ _ _ ih => exact ih

/-- Of the frames of a handler only one does not wait for a child. -/
theorem Represents.top (rep : Represents w handlers) (alive : w.aborted = false) (here : w.heap b = some f)
    (other : ¬ f.Waiting) : (w.shims f.owner).isSome ∧ ∀ c g, w.heap c = some g → g.owner = f.owner → ¬ g.Waiting → c = b := by
  obtain ⟨frames, stands, owned⟩ := rep.stands f.owner (rep.owners b f here)
  have tops : ∀ {k top} {callers : Callers E V S k}, Chain w f.owner top callers frames →
      ∀ c g, w.heap c = some g → g.owner = f.owner → ¬ g.Waiting → c = top := fun held c g there owner free =>
    held.is_top (owned c g there owner) there fun child j k next waits => free ⟨child, j, k, next, waits⟩
  have both : ∀ {k top} {callers : Callers E V S k}, Chain w f.owner top callers frames →
      (w.shims f.owner).isSome ∧ ∀ c g, w.heap c = some g → g.owner = f.owner → ¬ g.Waiting → c = b := fun held =>
    ⟨held.shim, fun c g there owner free =>
      (tops held c g there owner free).trans (tops held b f here rfl other).symm⟩
  generalize handlers f.owner = h at stands
  cases stands with
  | exec _ _ held => exact both held
  | blocked _ _ held => exact both held
  | returned => exact absurd (owned b f here rfl) List.not_mem_nil
  | threw aborted => exact absurd (alive.symm.trans aborted) Bool.false_ne_true

/-- What will be resumed has a frame that does not wait for a child. -/
theorem Represents.resumable (rep : Represents w handlers) {handle : Option Nat} (inside : handle ∈ w.resumable) :
    ∃ b f, handle = some b ∧ w.heap b = some f ∧ ¬ f.Waiting := by
  rcases List.mem_append.mp inside with early | flying
  · rcases List.mem_append.mp early with active | ready
    · obtain ⟨b, member, rfl⟩ := List.mem_map.mp active
      obtain ⟨x, on_stack, rfl⟩ := List.mem_map.mp member
      obtain ⟨f, here, point⟩ := rep.running x on_stack
      exact ⟨x.b, f, rfl, here, by simp [Frame.Waiting, point]⟩
    · obtain ⟨b, member, rfl⟩ := List.mem_map.mp ready
      obtain ⟨f, a, k, next, here, point⟩ := rep.queued.ready b member
      exact ⟨b, f, rfl, here, by simp [Frame.Waiting, point]⟩
  · obtain ⟨a, member, rfl⟩ := List.mem_map.mp flying
    obtain ⟨awaiter, f, k, next, made, here, point⟩ := rep.queued.inflight a member
    exact ⟨awaiter.handle, f, by rw [made]; rfl, here, by simp [Frame.Waiting, point]⟩

theorem Represents.resumable_once (rep : Represents w handlers) (alive : w.aborted = false) : w.resumable.Nodup := by
  have inj : Injective (some : Nat → Option Nat) := fun _ _ => Option.some.inj
  have blocked : ∀ a ∈ w.inflight, ∃ awaiter f k next, w.awaiters a = some awaiter ∧
      w.heap awaiter.handle = some f ∧ f.point = .blocked a k next := rep.queued.inflight
  refine List.nodup_append.mpr ⟨List.nodup_append.mpr ⟨rep.once.map inj, rep.queued.readyOnce.map inj, ?_⟩, ?_, ?_⟩
  · rintro _ active _ ready rfl
    obtain ⟨b, member, rfl⟩ := List.mem_map.mp active
    obtain ⟨x, on_stack, rfl⟩ := List.mem_map.mp member
    obtain ⟨f, here, running⟩ := rep.running x on_stack
    obtain ⟨g, a, k, next, there, point⟩ := rep.queued.ready x.b ((List.mem_map_of_injective inj).mp ready)
    cases here.symm.trans there
    cases running.symm.trans point
  · refine rep.queued.inflightOnce.map_on fun a first a' second same => ?_
    obtain ⟨awaiter, f, k, next, made, here, point⟩ := blocked a first
    obtain ⟨awaiter', f', k', next', made', here', point'⟩ := blocked a' second
    rw [made, made', Option.map_some, Option.map_some, Option.some.injEq] at same
    rw [same, here', Option.some.injEq] at here
    rw [here, point] at point'
    cases point'
    rfl
  · rintro _ early _ flying rfl
    obtain ⟨a, member, rfl⟩ := List.mem_map.mp flying
    obtain ⟨awaiter, f, k, next, made, here, point⟩ := blocked a member
    rw [made, Option.map_some] at early
    rcases List.mem_append.mp early with active | ready
    · obtain ⟨x, on_stack, same⟩ := List.mem_map.mp ((List.mem_map_of_injective inj).mp active)
      obtain ⟨g, there, running⟩ := rep.running x on_stack
      rw [same] at there
      cases here.symm.trans there
      cases running.symm.trans point
    · have queued := (List.mem_map_of_injective inj).mp ready
      obtain ⟨awaiter', callers, frames, waits⟩ := rep.waits alive here point
      rcases waits.place with ⟨_, absent⟩ | ⟨landed, _⟩
      · exact absent queued
      · exact landed member

theorem Represents.unfinished (rep : Represents w handlers) (alive : w.aborted = false) (below : t < w.started.length)
    (shim : (w.shims t).isSome) : some t ∈ w.resumable.map w.ownerOf := by
  obtain ⟨frames, stands, _⟩ := rep.stands t below
  generalize handlers t = h at stands
  have found : ∀ {k b f} {callers : Callers E V S k}, w.heap b = some f → Chain w t b callers frames →
      w.ownerOf (some b) = some t := by
    intro k b f callers here held
    obtain ⟨f', there, owner, _⟩ := held.top
    simp [World.ownerOf, there, owner]
  cases stands with
  | exec here _ held inside =>
    refine List.mem_map.mpr ⟨some _, ?_, found here held⟩
    exact List.mem_append_left _ (List.mem_append_left _ (List.mem_map_of_mem (List.mem_map_of_mem inside)))
  | blocked here _ held made handle place =>
    refine List.mem_map.mpr ⟨some _, ?_, found here held⟩
    rcases place with ⟨flying, _⟩ | ⟨_, ready⟩
    · exact List.mem_append_right _ (List.mem_map.mpr ⟨_, flying, by rw [made, Option.map_some, handle]⟩)
    · exact List.mem_append_left _ (List.mem_append_right _ (List.mem_map_of_mem ready))
  | returned gone => simp [gone] at shim
  | threw aborted => exact absurd (alive.symm.trans aborted) Bool.false_ne_true

/-- No handler is lost and none is resumed twice: each one that has not
returned is on the stack, is ready, or waits for one operation in flight, and
of these three it is at one place and once; what is at these places is of such
a handler. -/
theorem none_is_lost {moves : List (Move S)} (reach : Run (step code) {} moves w) (alive : w.aborted = false) :
    (w.resumable.map w.ownerOf).Perm (w.unfinished.map some) := by
  obtain ⟨_, handlers, rep, _⟩ := handlers_run_alone reach
  have once : (w.resumable.map w.ownerOf).Nodup := by
    refine (rep.resumable_once alive).map_on fun x first y second same => ?_
    obtain ⟨b, f, rfl, here, free⟩ := rep.resumable first
    obtain ⟨c, g, rfl, there, free'⟩ := rep.resumable second
    have owners : f.owner = g.owner := by simpa [World.ownerOf, here, there] using same
    rw [(rep.top alive here free).2 c g there owners.symm free']
  have range : (w.unfinished.map some).Nodup := (List.nodup_range.filter _).map fun _ _ => Option.some.inj
  refine (List.perm_ext_iff_of_nodup once range).mpr fun owner => ⟨fun inside => ?_, fun inside => ?_⟩
  · obtain ⟨x, member, rfl⟩ := List.mem_map.mp inside
    obtain ⟨b, f, rfl, here, free⟩ := rep.resumable member
    have owner : w.ownerOf (some b) = some f.owner := by simp [World.ownerOf, here]
    refine owner ▸ List.mem_map_of_mem (List.mem_filter.mpr ⟨?_, (rep.top alive here free).1⟩)
    exact List.mem_range.mpr (rep.owners b f here)
  · obtain ⟨t, member, rfl⟩ := List.mem_map.mp inside
    obtain ⟨below, shim⟩ := List.mem_filter.mp member
    exact rep.unfinished alive (List.mem_range.mp below) shim

/-- One handler waits for its send, and the other one is ready. -/
theorem two_echoes_not_lost :
    let w := after (step echo) {} (twoEchoes.take 12)
    (w.resumable.map w.ownerOf).Perm (w.unfinished.map some) := by
  have reach : Run (step echo) {} (twoEchoes.take 12) (after (step echo) {} (twoEchoes.take 12)) := run_eq_some rfl
  exact none_is_lost reach rfl

end CoroNet.EventLoop
