import CoroNet.Coroutine.Stack

namespace CoroNet.Coroutine

open Function Transition

variable {E V : Type} {k : Kind} {m m' : Machine E V}

/-- The outcome of a body goes into its promise. -/
def Promise.store (p : Promise E V) (k : Kind) : Except E (k.Ret V) → Promise E V
  | .ok r => p.returned k r
  | .error e => p.unhandledException e

theorem Promise.awaitResume_store (k : Kind) (result : Except E (k.Ret V)) :
    ((Promise.new k).store k result).awaitResume k = .ok result := by
  cases k <;> cases result <;> rfl

/-- The body is executing in frame `b`, and nothing of it has been executed. -/
structure Machine.Executes (m : Machine E V) (b : Nat) (f : Frame E V) (body : Body E V k) : Prop where
  frame : m.heap b = some f
  clean : f.promise = .new k
  running : f.point = .running
  control : m.control = .body b k body
  stack : m.stack = [.task b]
  sound : m.fault = none
  fresh : ∀ n, m.frames ≤ n → m.heap n = none

/-- The machine after the final suspension of the body. -/
def Machine.afterBody (m : Machine E V) (b : Nat) (f : Frame E V) (body : Body E V k) : Machine E V :=
  { m with
    heap := update m.heap b (some { f with promise := f.promise.store k body.eval, point := .final })
    frames := body.frames m.frames
    stack := []
    control := .resume f.continuation
    log := m.log ++ body.events b m.frames }

theorem step_of_next (sound : m.fault = none) (next : m.next = some m') : step m () = some m' := by
  simp [step, sound, next]

/-- A body that ends stores its outcome and has its continuation resumed. -/
theorem Machine.Executes.finish {b : Nat} {f : Frame E V} {body : Body E V k} (at_body : m.Executes b f body)
    {store : Promise E V → Promise E V} (next : m.next = some (m.settle b store)) :
    ∃ acts, Run step m acts { m with
      heap := update m.heap b (some { f with promise := store f.promise, point := .final })
      stack := []
      control := .resume f.continuation
      log := m.log ++ [.finished b] } := by
  have settled : m.settle b store = { m with
      heap := update m.heap b (some { f with promise := store f.promise })
      control := .finalSuspend b } := by
    simp [Machine.settle, at_body.frame]
  rw [settled] at next
  refine ⟨_, Run.trans (Run.single (step_of_next at_body.sound next)) (Run.single (step_of_next at_body.sound ?_))⟩
  simp [Machine.next, Machine.finalSuspend, at_body.stack]

/-- A body runs to its final suspension, whatever is around its frame. -/
def Body.Runs (body : Body E V k) : Prop :=
  ∀ (m : Machine E V) (b : Nat) (f : Frame E V), m.Executes b f body → ∃ acts, Run step m acts (m.afterBody b f body)

/-- The machine in which a child has just been started by the body of frame `b`. -/
def Machine.intoChild {j : Kind} (m : Machine E V) (b : Nat) (f : Frame E V) (child : Body E V j)
    (next : Except E (j.Ret V) → Body E V k) : Machine E V :=
  { m with
    heap := update (update m.heap b (some { f with point := .awaiting m.frames j k next })) m.frames
      (some { promise := .new j, continuation := .task b, point := .running })
    frames := m.frames + 1
    stack := [.task m.frames]
    control := .body m.frames j child
    log := m.log ++ [.created (.task m.frames), .awaited (.task b) m.frames, .started (.task m.frames)] }

/-- The child is started when it is awaited, in place of its parent. -/
theorem Machine.Executes.enter {j : Kind} {b : Nat} {f : Frame E V} {child : Body E V j}
    {next : Except E (j.Ret V) → Body E V k} (at_body : m.Executes b f (.await child next)) :
    ∃ acts, Run step m acts (m.intoChild b f child next) := by
  have apart : b ≠ m.frames := by
    rintro rfl
    exact absurd (at_body.frame.symm.trans (at_body.fresh _ (Nat.le_refl _))) (Option.some_ne_none f)
  have create : step m () = some (m.create b child next) :=
    step_of_next at_body.sound (by simp [Machine.next, at_body.control])
  have await : step (m.create b child next) () = some { m.create b child next with
      heap := update (update m.heap b (some { f with point := .awaiting m.frames j k next })) m.frames
        (some { promise := .new j, continuation := .task b, point := .initial j child })
      stack := []
      control := .resume (.task m.frames)
      log := m.log ++ [.created (.task m.frames), .awaited (.task b) m.frames] } := by
    refine step_of_next at_body.sound ?_
    simp only [Machine.next, Machine.create, Machine.coAwait, update_of_ne apart, at_body.frame, update_self]
    simp [Frame.done, at_body.stack, update_comm apart]
  have start : step { m.create b child next with
      heap := update (update m.heap b (some { f with point := .awaiting m.frames j k next })) m.frames
        (some { promise := .new j, continuation := .task b, point := .initial j child })
      stack := []
      control := .resume (.task m.frames)
      log := m.log ++ [.created (.task m.frames), .awaited (.task b) m.frames] } () =
      some (m.intoChild b f child next) := by
    refine step_of_next at_body.sound ?_
    simp [Machine.next, Machine.resumeTask, Machine.intoChild, Machine.create]
  exact ⟨_, Run.trans (Run.single create) (Run.trans (Run.single await) (Run.single start))⟩

/-- The machine in which the parent goes on with the outcome of the child. -/
def Machine.pastChild {j : Kind} (m : Machine E V) (b : Nat) (child : Body E V j)
    (next : Except E (j.Ret V) → Body E V k) : Machine E V :=
  { m with
    frames := child.frames (m.frames + 1)
    control := .body b k (next child.eval)
    log := m.log ++ ([.created (.task m.frames), .awaited (.task b) m.frames, .started (.task m.frames)] ++
      child.events m.frames (m.frames + 1) ++
      [.continued (.task b) m.frames (j.erase child.eval), .destroyed (.task m.frames)]) }

/-- The parent is resumed in place of the child, takes its outcome and destroys it. -/
theorem Machine.Executes.leave {j : Kind} {b : Nat} {f : Frame E V} {child : Body E V j}
    {next : Except E (j.Ret V) → Body E V k} (at_body : m.Executes b f (.await child next)) :
    ∃ acts, Run step ((m.intoChild b f child next).afterBody m.frames ⟨.new j, .task b, .running⟩ child) acts
      (m.pastChild b child next) := by
  have unused := at_body.fresh _ (Nat.le_refl _)
  have apart : b ≠ m.frames := by
    rintro rfl
    exact absurd (at_body.frame.symm.trans unused) (Option.some_ne_none f)
  let finished := (m.intoChild b f child next).afterBody m.frames ⟨.new j, .task b, .running⟩ child
  let done : Frame E V := ⟨(Promise.new j).store j child.eval, .task b, .final⟩
  let resumed : Machine E V := { finished with
    heap := update m.heap m.frames (some done)
    stack := [.task b]
    control := .awaitResume b m.frames j k next }
  let continued : Machine E V := { resumed with
    control := .endExpression b m.frames k (next child.eval)
    log := finished.log ++ [.continued (.task b) m.frames (j.erase child.eval)] }
  have back : update finished.heap b (some { f with point := .running }) = update m.heap m.frames (some done) := by
    have same : { f with point := .running } = f := by rw [← at_body.running]
    show update (update (update (update m.heap b _) m.frames _) m.frames (some done)) b _ = _
    rw [same, update_idem, update_comm apart.symm, update_idem, ← at_body.frame, update_eq_self]
  have waiting : finished.heap b = some { f with point := .awaiting m.frames j k next } := by
    show update (update (update m.heap b _) m.frames _) m.frames (some done) b = _
    rw [update_of_ne apart, update_of_ne apart, update_self]
  have resume : step finished () = some resumed := by
    refine step_of_next at_body.sound ?_
    show some (finished.resumeTask b) = some resumed
    simp only [Machine.resumeTask, waiting, back, resumed]
    rfl
  have take : step resumed () = some continued := by
    refine step_of_next at_body.sound ?_
    simp [Machine.next, Machine.awaitResume, resumed, done, Promise.awaitResume_store, continued]
  have drop : step continued () = some (m.pastChild b child next) := by
    refine step_of_next at_body.sound ?_
    show some (continued.destroy m.frames _) = some _
    have here : continued.heap m.frames = some done := update_self ..
    have gone : update continued.heap m.frames none = m.heap := by
      show update (update m.heap m.frames (some done)) m.frames none = m.heap
      rw [update_idem, ← unused, update_eq_self]
    simp only [Machine.destroy, here, gone]
    simp [done, Frame.suspended, continued, resumed, finished, Machine.afterBody, Machine.intoChild, Machine.pastChild,
      at_body.stack]
  exact ⟨_, Run.trans (Run.single resume) (Run.trans (Run.single take) (Run.single drop))⟩

theorem Machine.Executes.intoChild {j : Kind} {b : Nat} {f : Frame E V} {child : Body E V j}
    {next : Except E (j.Ret V) → Body E V k} (at_body : m.Executes b f (.await child next)) :
    (m.intoChild b f child next).Executes m.frames ⟨.new j, .task b, .running⟩ child where
  frame := update_self ..
  clean := rfl
  running := rfl
  control := rfl
  stack := rfl
  sound := at_body.sound
  fresh := by
    intro n above
    have later : m.frames < n := above
    have unused := at_body.fresh n (Nat.le_of_lt later)
    have apart : n ≠ b := by
      rintro rfl
      exact absurd (at_body.frame.symm.trans unused) (Option.some_ne_none f)
    show update (update m.heap b _) m.frames _ n = none
    rw [update_of_ne (Nat.ne_of_gt later), update_of_ne apart, unused]

theorem Machine.Executes.pastChild {j : Kind} {b : Nat} {f : Frame E V} {child : Body E V j}
    {next : Except E (j.Ret V) → Body E V k} (at_body : m.Executes b f (.await child next)) :
    (m.pastChild b child next).Executes b f (next child.eval) where
  frame := at_body.frame
  clean := at_body.clean
  running := at_body.running
  control := rfl
  stack := at_body.stack
  sound := at_body.sound
  fresh := by
    intro n above
    have grown := child.le_frames (m.frames + 1)
    have later : child.frames (m.frames + 1) ≤ n := above
    exact at_body.fresh n (by omega)

/-- Every body runs to its final suspension and does what its direct
evaluation does. The induction is on the tree of bodies: over the child, then
over what the parent does with its outcome. -/
theorem Body.runs (body : Body E V k) : body.Runs := by
  induction body with
  | ret r =>
    intro m b f at_body
    have next : m.next = some (m.settle b fun p => p.returned _ r) := by simp [Machine.next, at_body.control]
    exact at_body.finish next
  | throw e =>
    intro m b f at_body
    have next : m.next = some (m.settle b fun p => p.unhandledException e) := by
      simp [Machine.next, at_body.control]
    exact at_body.finish next
  | await child next ih ih' =>
    intro m b f at_body
    obtain ⟨_, enter⟩ := at_body.enter
    obtain ⟨_, inside⟩ := ih _ _ _ at_body.intoChild
    obtain ⟨_, leave⟩ := at_body.leave
    obtain ⟨_, rest⟩ := ih' child.eval _ _ _ at_body.pastChild
    have same : (m.pastChild b child next).afterBody b f (next child.eval) = m.afterBody b f (.await child next) := by
      simp [Machine.afterBody, Machine.pastChild, Body.eval, Body.frames, Body.events]
    exact ⟨_, same ▸ Run.trans enter (Run.trans inside (Run.trans leave rest))⟩

end CoroNet.Coroutine
