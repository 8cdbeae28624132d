import CoroNet.EventLoop.System
import Mathlib.Data.List.Nodup

namespace CoroNet.EventLoop

open Coroutine (Kind Promise Fault)
open Function

variable {E V A : Type} {S : Kind → Type} {code : Code E V A S} {w w' : World E V A S} {k : Kind} {t b : Nat}
  {callers : Callers E V S k} {frames : List Nat}

/-- The frames from `b` up to the one `spawn_shim` has, and the callers that
they keep. A child is made after its caller. -/
inductive Chain (w : World E V A S) (t : Nat) : {k : Kind} → Nat → Callers E V S k → List Nat → Prop
  | root {b : Nat} {f : Frame E V S} : w.heap b = some f → f.owner = t → f.promise = .new .void →
      f.continuation = .shim t → w.shims t = some b → Chain w t b (.nobody : Callers E V S .void) [b]
  | child {j k : Kind} {b p : Nat} {f g : Frame E V S} {next : Except E (j.Ret V) → S k} {callers : Callers E V S k}
      {frames : List Nat} : w.heap b = some f → f.owner = t → f.promise = .new j → f.continuation = .task p →
      w.heap p = some g → g.point = .awaiting b j k next → p < b → Chain w t p callers frames →
      Chain w t b (.caller next callers) (b :: frames)

/-- Where a handler stands in the frames of its coroutines. -/
inductive Stands (w : World E V A S) (t : Nat) : Handler E V A S → List Nat → Prop
  | exec {k : Kind} {b : Nat} {f : Frame E V S} {s : S k} {callers : Callers E V S k} {frames : List Nat} :
      w.heap b = some f → f.point = .running → Chain w t b callers frames → ⟨b, k, s⟩ ∈ w.stack →
      Stands w t (.exec s callers) frames
  | blocked {k : Kind} {b a : Nat} {f : Frame E V S} {awaiter : Awaiter A} {next : Answer → S k}
      {callers : Callers E V S k} {frames : List Nat} :
      w.heap b = some f → f.point = .blocked a k next → Chain w t b callers frames →
      w.awaiters a = some awaiter → awaiter.handle = b →
      (a ∈ w.inflight ∧ b ∉ w.readyQueue ∨ a ∉ w.inflight ∧ b ∈ w.readyQueue) →
      Stands w t (.blocked awaiter.op next callers) frames
  | returned : w.shims t = none → Stands w t (.ended (.ok ())) []
  | threw {e : E} {frames : List Nat} : w.aborted = true → Stands w t (.ended (.error e)) frames

/-- Every coroutine in the ready queue, and every one an operation in flight
belongs to, is suspended on an awaiter; none is there twice. -/
structure Queued (w : World E V A S) : Prop where
  ready : ∀ b ∈ w.readyQueue, ∃ f a k next, w.heap b = some f ∧ f.point = .blocked a k next
  readyOnce : w.readyQueue.Nodup
  inflight : ∀ a ∈ w.inflight, ∃ awaiter f k next,
    w.awaiters a = some awaiter ∧ w.heap awaiter.handle = some f ∧ f.point = .blocked a k next
  inflightOnce : w.inflight.Nodup
  unused : ∀ a, w.suspensions ≤ a → w.awaiters a = none

/-- The frames are those of the handlers. -/
structure Represents (w : World E V A S) (handlers : Nat → Handler E V A S) : Prop where
  stands : ∀ t < w.started.length, ∃ frames, Stands w t (handlers t) frames ∧
    ∀ b f, w.heap b = some f → f.owner = t → b ∈ frames
  owners : ∀ b f, w.heap b = some f → f.owner < w.started.length
  running : ∀ x ∈ w.stack, ∃ f, w.heap x.b = some f ∧ f.point = .running
  once : (w.stack.map Active.b).Nodup
  queued : Queued w
  fresh : ∀ n, w.frames ≤ n → w.heap n = none

theorem Chain.top (held : Chain w t b callers frames) :
    ∃ f, w.heap b = some f ∧ f.owner = t ∧ f.promise = .new k ∧ b ∈ frames := by
  cases held with
  | root here owner promise => exact ⟨_, here, owner, promise, List.mem_singleton_self b⟩
  | child here owner promise => exact ⟨_, here, owner, promise, List.mem_cons_self⟩

/-- Below the top every frame waits for its child. -/
theorem Chain.waits (held : Chain w t b callers frames) {c : Nat} (inside : c ∈ frames) :
    c = b ∨ c < b ∧ ∃ f child j k' next, w.heap c = some f ∧ f.point = .awaiting child j k' next := by
  induction held with
  | root => exact Or.inl (List.mem_singleton.mp inside)
  | child _ _ _ _ parent waits older _ ih =>
    rcases List.mem_cons.mp inside with rfl | inside
    · exact Or.inl rfl
    · rcases ih inside with rfl | ⟨below, waiting⟩
      · exact Or.inr ⟨older, _, _, _, _, _, parent, waits⟩
      · exact Or.inr ⟨Nat.lt_trans below older, waiting⟩

/-- Only the top of a chain is at another place than a co_await of a child. -/
theorem Chain.is_top (held : Chain w t b callers frames) {c : Nat} {f : Frame E V S} (inside : c ∈ frames)
    (here : w.heap c = some f) (other : ∀ child j k' next, f.point ≠ .awaiting child j k' next) : c = b := by
  rcases held.waits inside with same | ⟨_, g, child, j, k', next, there, waits⟩
  · exact same
  · cases here.symm.trans there
    exact absurd waits (other child j k' next)

/-- A chain does not depend on where its top is. -/
theorem Chain.congr (held : Chain w t b callers frames)
    (top : ∀ f, w.heap b = some f → ∃ point, w'.heap b = some { f with point := point })
    (below : ∀ c ∈ frames, c < b → w'.heap c = w.heap c) (shims : w'.shims t = w.shims t) :
    Chain w' t b callers frames := by
  induction held with
  | root here owner promise continuation shim =>
    obtain ⟨point, there⟩ := top _ here
    exact .root there owner promise continuation (shims.trans shim)
  | @child _ _ _ p _ g _ _ _ here owner promise continuation parent waits older inner ih =>
    obtain ⟨point, there⟩ := top _ here
    have inside := inner.top.choose_spec.2.2.2
    have same := below p (List.mem_cons_of_mem _ inside) older
    refine .child there owner promise continuation (same.trans parent) waits older (ih ?_ ?_)
    · intro f found
      exact ⟨f.point, same.trans found⟩
    · exact fun c member less => below c (List.mem_cons_of_mem _ member) (Nat.lt_trans less older)

/-- What a step of one handler leaves to the handler `t`. -/
structure Leaves (w w' : World E V A S) (t : Nat) : Prop where
  heap : ∀ b f, f.owner = t → (w'.heap b = some f ↔ w.heap b = some f)
  shims : w'.shims t = w.shims t
  stack : ∀ x ∈ w.stack, (∃ f, w.heap x.b = some f ∧ f.owner = t) → x ∈ w'.stack
  awaiters : ∀ a awaiter f, w.awaiters a = some awaiter → w.heap awaiter.handle = some f → f.owner = t →
    w'.awaiters a = some awaiter ∧ (a ∈ w'.inflight ↔ a ∈ w.inflight)
  ready : ∀ b f, w.heap b = some f → f.owner = t → (b ∈ w'.readyQueue ↔ b ∈ w.readyQueue)

theorem Leaves.chain (leaves : Leaves w w' t) (held : Chain w t b callers frames) : Chain w' t b callers frames := by
  induction held with
  | root here owner promise continuation shim =>
    exact .root ((leaves.heap _ _ owner).mpr here) owner promise continuation (leaves.shims.trans shim)
  | child here owner promise continuation parent waits older inner ih =>
    obtain ⟨g, there, ownerParent, _⟩ := inner.top
    cases there.symm.trans parent
    exact .child ((leaves.heap _ _ owner).mpr here) owner promise continuation
      ((leaves.heap _ _ ownerParent).mpr parent) waits older ih

theorem Leaves.stands {h : Handler E V A S} (leaves : Leaves w w' t) (alive : w.aborted = false)
    (stands : Stands w t h frames) : Stands w' t h frames := by
  cases stands with
  | exec here running held inside =>
    obtain ⟨f, there, owner, _⟩ := held.top
    cases there.symm.trans here
    exact .exec ((leaves.heap _ _ owner).mpr here) running (leaves.chain held) (leaves.stack _ inside ⟨_, here, owner⟩)
  | blocked here point held awaiter handle place =>
    subst handle
    obtain ⟨f, there, owner, _⟩ := held.top
    cases there.symm.trans here
    obtain ⟨kept, same⟩ := leaves.awaiters _ _ _ awaiter here owner
    refine .blocked ((leaves.heap _ _ owner).mpr here) point (leaves.chain held) kept rfl ?_
    rw [same, leaves.ready _ _ here owner]
    exact place
  | returned gone => exact .returned (leaves.shims.trans gone)
  | threw aborted => exact absurd (alive.symm.trans aborted) Bool.false_ne_true

/-- A coroutine on the stack is the top of its handler. -/
structure Executes (w : World E V A S) (handlers : Nat → Handler E V A S) (b : Nat) (s : S k) (f : Frame E V S)
    (callers : Callers E V S k) (frames : List Nat) : Prop where
  here : w.heap b = some f
  point : f.point = .running
  owner : f.owner < w.started.length
  handler : handlers f.owner = .exec s callers
  chain : Chain w f.owner b callers frames
  owned : ∀ c g, w.heap c = some g → g.owner = f.owner → c ∈ frames

/-- A coroutine that is suspended on an awaiter is the top of its handler. -/
structure Waits (w : World E V A S) (handlers : Nat → Handler E V A S) (b a : Nat) (next : Answer → S k) (f : Frame E V S)
    (awaiter : Awaiter A) (callers : Callers E V S k) (frames : List Nat) : Prop where
  here : w.heap b = some f
  point : f.point = .blocked a k next
  owner : f.owner < w.started.length
  handler : handlers f.owner = .blocked awaiter.op next callers
  chain : Chain w f.owner b callers frames
  owned : ∀ c g, w.heap c = some g → g.owner = f.owner → c ∈ frames
  made : w.awaiters a = some awaiter
  handle : awaiter.handle = b
  place : a ∈ w.inflight ∧ b ∉ w.readyQueue ∨ a ∉ w.inflight ∧ b ∈ w.readyQueue

variable {handlers : Nat → Handler E V A S} {f : Frame E V S}

theorem Represents.executes {s : S k} (rep : Represents w handlers) (alive : w.aborted = false)
    (inside : ⟨b, k, s⟩ ∈ w.stack) : ∃ f callers frames, Executes w handlers b s f callers frames := by
  obtain ⟨f, here, running⟩ := rep.running _ inside
  have owner := rep.owners b f here
  obtain ⟨frames, stands, owned⟩ := rep.stands f.owner owner
  have member := owned b f here rfl
  have apart : ∀ child j k' next, f.point ≠ .awaiting child j k' next := by simp [running]
  generalize handler : handlers f.owner = h at stands
  cases stands with
  | exec there _ held inside' =>
    cases held.is_top member here apart
    cases List.inj_on_of_nodup_map rep.once inside inside' rfl
    exact ⟨f, _, frames, here, running, owner, handler, held, owned⟩
  | blocked there point held =>
    cases held.is_top member here apart
    cases there.symm.trans here
    cases point.symm.trans running
  | returned => exact absurd member List.not_mem_nil
  | threw aborted => exact absurd (alive.symm.trans aborted) Bool.false_ne_true

theorem Represents.waits {a : Nat} {next : Answer → S k} (rep : Represents w handlers) (alive : w.aborted = false)
    (here : w.heap b = some f) (point : f.point = .blocked a k next) :
    ∃ awaiter callers frames, Waits w handlers b a next f awaiter callers frames := by
  have owner := rep.owners b f here
  obtain ⟨frames, stands, owned⟩ := rep.stands f.owner owner
  have member := owned b f here rfl
  have apart : ∀ child j k' next, f.point ≠ .awaiting child j k' next := by simp [point]
  generalize handler : handlers f.owner = h at stands
  cases stands with
  | exec there running held =>
    cases held.is_top member here apart
    cases there.symm.trans here
    cases running.symm.trans point
  | blocked there point' held made handle place =>
    cases held.is_top member here apart
    cases there.symm.trans here
    cases point'.symm.trans point
    exact ⟨_, _, frames, here, point, owner, handler, held, owned, made, handle, place⟩
  | returned => exact absurd member List.not_mem_nil
  | threw aborted => exact absurd (alive.symm.trans aborted) Bool.false_ne_true

/-- One handler takes a step; the others are left alone. -/
theorem Represents.only {h : Handler E V A S} (rep : Represents w handlers) (alive : w.aborted = false)
    (started : w'.started = w.started)
    (acting : ∃ frames, Stands w' t h frames ∧ ∀ b f, w'.heap b = some f → f.owner = t → b ∈ frames)
    (others : ∀ t', t' ≠ t → Leaves w w' t') (t' : Nat) (below : t' < w'.started.length) :
    ∃ frames, Stands w' t' (update handlers t h t') frames ∧
      ∀ b f, w'.heap b = some f → f.owner = t' → b ∈ frames := by
  by_cases same : t' = t
  · subst same
    rw [update_self]
    exact acting
  · rw [update_of_ne same]
    have leaves := others t' same
    obtain ⟨frames, stands, owned⟩ := rep.stands t' (started ▸ below)
    exact ⟨frames, leaves.stands alive stands, fun b f here owner => owned b f ((leaves.heap b f owner).mp here) owner⟩

end CoroNet.EventLoop
