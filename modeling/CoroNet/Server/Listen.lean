import CoroNet.General.Runs
import Mathlib.Data.List.Count
import Mathlib.Data.List.Nodup
import Mathlib.Order.Lattice

namespace CoroNet.TcpServer

open Transition

/-- A server as far as its listening sockets go: the descriptors
`make_listen_socket` has returned to it, those it has shut down and those it
has closed, in order. -/
structure Sockets where
  workerThreads : Nat
  running : Bool := false
  listenFds : List Int := []
  returned : List Int := []
  shut : List Int := []
  closed : List Int := []
  destroyed : Bool := false

namespace Sockets

def make (workerThreads : Nat) : Sockets := { workerThreads := if workerThreads = 0 then 1 else workerThreads }

/-- `std::vector::resize`, with zeros for new elements. -/
def resize (fds : List Int) (n : Nat) : List Int := fds.take n ++ List.replicate (n - fds.length) 0

/-- The sockets made are assigned from the front on; the call after the last
of them throws if they are fewer than the workers. -/
def assign (fds made : List Int) : List Int := made ++ fds.drop made.length

/-- `start()` when `make_listen_socket` returns these descriptors, one after
another. -/
def start (s : Sockets) (made : List Int) : Sockets :=
  if s.running then s
  else { s with
    running := true
    listenFds := assign (resize s.listenFds s.workerThreads) made
    returned := s.returned ++ made }

def stop (s : Sockets) : Sockets :=
  if s.running then { s with running := false, shut := s.shut ++ s.listenFds.filter fun fd => 0 ≤ fd } else s

def destroy (s : Sockets) : Sockets :=
  { s.stop with
    closed := s.stop.closed ++ s.stop.listenFds.filter fun fd => 0 ≤ fd
    listenFds := []
    destroyed := true }

/-- A descriptor is new as long as it is not one of those still open. -/
def fresh (s : Sockets) (made : List Int) : Prop :=
  made.length ≤ s.workerThreads ∧ made.Nodup ∧ ∀ fd ∈ made, 0 ≤ fd ∧ (fd ∈ s.returned → fd ∈ s.closed)

instance (s : Sockets) (made : List Int) : Decidable (s.fresh made) := inferInstanceAs (Decidable (_ ∧ _ ∧ _))

end Sockets

inductive Call
  | start (made : List Int)
  | stop
  | wait
  | destroy

namespace Sockets

def step (s : Sockets) (a : Call) : Option Sockets :=
  if s.destroyed then none
  else match a with
    | .start made => if s.fresh made ∧ (s.running = true → made = []) then some (s.start made) else none
    | .stop => some s.stop
    | .wait => some s
    | .destroy => some s.destroy

/-- Only own descriptors are shut down and closed, and after the destruction
each of them has been closed once. -/
def Owned (s : Sockets) : Prop :=
  (∀ fd, fd ∈ s.shut ∨ fd ∈ s.closed → fd ∈ s.returned) ∧
    (s.destroyed = true → ∀ fd ∈ s.returned, s.closed.count fd = 1)

/-- The first `start` makes all sockets; a later one fails at the first. -/
def clean (s : Sockets) : Call → Bool
  | .start made => s.running || if s.listenFds = [] then made.length = s.workerThreads else made = []
  | _ => true

variable {s s' : Sockets} {a : Call} {made : List Int}

/-- The vector holds what was returned, each once. -/
structure Kept (s : Sockets) : Prop where
  workers : 0 < s.workerThreads
  own : s.listenFds = s.returned
  nodup : s.returned.Nodup
  valid : ∀ fd ∈ s.returned, 0 ≤ fd
  full : s.listenFds = [] ∨ s.listenFds.length = s.workerThreads
  shut : ∀ fd ∈ s.shut, fd ∈ s.returned
  closed : s.closed = []
  alive : s.destroyed = false

theorem Kept.filter (kept : Kept s) : s.listenFds.filter (fun fd => 0 ≤ fd) = s.returned := by
  rw [kept.own, List.filter_eq_self]
  intro fd member
  exact decide_eq_true (kept.valid fd member)

theorem Kept.stop (kept : Kept s) : Kept s.stop := by
  unfold Sockets.stop
  split
  · refine ⟨kept.workers, kept.own, kept.nodup, kept.valid, kept.full, fun fd member => ?_, kept.closed, kept.alive⟩
    rcases List.mem_append.mp member with old | now
    · exact kept.shut fd old
    · rwa [kept.filter] at now
  · exact kept

theorem Kept.start (kept : Kept s) (fresh : s.fresh made) (clean : s.clean (.start made) = true) :
    Kept (s.start made) := by
  unfold Sockets.start
  by_cases running : s.running = true
  · rwa [if_pos running]
  rw [if_neg running]
  simp only [Sockets.clean, running, Bool.false_or] at clean
  by_cases first : s.listenFds = []
  · have all : made.length = s.workerThreads := by simpa [first] using clean
    have none_returned : s.returned = [] := kept.own ▸ first
    have whole : assign (resize s.listenFds s.workerThreads) made = made := by simp [assign, resize, first, all]
    refine ⟨kept.workers, ?_, ?_, ?_, Or.inr ((congrArg List.length whole).trans all), ?_, kept.closed, kept.alive⟩
    · rw [whole, none_returned, List.nil_append]
    · rw [none_returned, List.nil_append]
      exact fresh.2.1
    · rw [none_returned, List.nil_append]
      exact fun fd member => (fresh.2.2 fd member).1
    · exact fun fd member => List.mem_append_left _ (kept.shut fd member)
  · have nothing : made = [] := by simpa [first] using clean
    have length := kept.full.resolve_left first
    have same : assign (resize s.listenFds s.workerThreads) made = s.listenFds := by
      simp [assign, resize, nothing, length, List.take_of_length_le length.le]
    rw [same, nothing, List.append_nil]
    exact ⟨kept.workers, kept.own, kept.nodup, kept.valid, kept.full, kept.shut, kept.closed, kept.alive⟩

theorem Kept.owned (kept : Kept s) : Owned s := by
  refine ⟨fun fd member => ?_, fun gone => ?_⟩
  · rcases member with member | member
    · exact kept.shut fd member
    · rw [kept.closed] at member
      cases member
  · rw [kept.alive] at gone
    cases gone

theorem Kept.destroy (kept : Kept s) : Owned s.destroy := by
  have stopped := kept.stop
  have closes : s.destroy.closed = s.stop.returned := by
    simp only [Sockets.destroy, stopped.closed, stopped.filter, List.nil_append]
  refine ⟨fun fd member => ?_, fun _ fd member => ?_⟩
  · rcases member with member | member
    · exact stopped.shut fd member
    · rwa [closes] at member
  · rw [closes]
    exact List.count_eq_one_of_mem stopped.nodup member

/-- A server that owns its sockets, alive or destroyed. -/
def Sound (s : Sockets) : Prop := Kept s ∨ s.destroyed = true ∧ Owned s

theorem Sound.step (sound : Sound s) (clean : s.clean a = true) (move : step s a = some s') : Sound s' := by
  obtain ⟨alive, move⟩ := Option.ite_none_left_eq_some.mp move
  have kept : Kept s := sound.resolve_right fun gone => alive gone.1
  cases a with
  | start made =>
    obtain ⟨⟨fresh, _⟩, moved⟩ := Option.ite_none_right_eq_some.mp move
    cases Option.some.inj moved
    exact Or.inl (kept.start fresh clean)
  | stop =>
    cases Option.some.inj move
    exact Or.inl kept.stop
  | wait =>
    cases Option.some.inj move
    exact Or.inl kept
  | destroy =>
    cases Option.some.inj move
    exact Or.inr ⟨rfl, kept.destroy⟩

/-- A zero the vector was filled with is shut down or closed, or will be, or a
descriptor that is not closed has left the vector. -/
def Spoiled (s : Sockets) : Prop :=
  (0 ∈ s.listenFds ∧ s.running = true ∧ s.destroyed = false) ∨ 0 ∈ s.shut ∨ 0 ∈ s.closed ∨
    ∃ fd ∈ s.returned, fd ∉ s.listenFds ∧ fd ∉ s.closed

theorem mem_assign {fds : List Int} {n : Nat} {fd : Int} (member : fd ∈ assign (resize fds n) made) :
    fd ∈ made ∨ fd ∈ fds ∨ fd = 0 := by
  rcases List.mem_append.mp member with new | member
  · exact Or.inl new
  · rcases List.mem_append.mp (List.mem_of_mem_drop member) with old | filler
    · exact Or.inr (Or.inl (List.mem_of_mem_take old))
    · exact Or.inr (Or.inr (List.eq_of_mem_replicate filler))

theorem Spoiled.stop (spoiled : Spoiled s) :
    0 ∈ s.stop.shut ∨ 0 ∈ s.stop.closed ∨ ∃ fd ∈ s.stop.returned, fd ∉ s.stop.listenFds ∧ fd ∉ s.stop.closed := by
  unfold Sockets.stop
  by_cases running : s.running = true
  · rw [if_pos running]
    rcases spoiled with ⟨zero, _, _⟩ | shut | closed | leaked
    · exact Or.inl (List.mem_append_right _ (List.mem_filter.mpr ⟨zero, rfl⟩))
    · exact Or.inl (List.mem_append_left _ shut)
    · exact Or.inr (Or.inl closed)
    · exact Or.inr (Or.inr leaked)
  · rw [if_neg running]
    exact spoiled.resolve_left fun zero => running zero.2.1

theorem Spoiled.step (spoiled : Spoiled s) (move : step s a = some s') (zero_foreign : 0 ∉ s'.returned) :
    Spoiled s' := by
  obtain ⟨_, move⟩ := Option.ite_none_left_eq_some.mp move
  cases a with
  | start made =>
    obtain ⟨⟨fresh, _⟩, moved⟩ := Option.ite_none_right_eq_some.mp move
    cases Option.some.inj moved
    unfold Sockets.start at zero_foreign ⊢
    by_cases running : s.running = true
    · rwa [if_pos running]
    rw [if_neg running] at zero_foreign ⊢
    rcases spoiled with ⟨_, up, _⟩ | shut | closed | ⟨fd, returned, lost, not_closed⟩
    · exact absurd up running
    · exact Or.inr (Or.inl shut)
    · exact Or.inr (Or.inr (Or.inl closed))
    · refine Or.inr (Or.inr (Or.inr ⟨fd, List.mem_append_left _ returned, fun member => ?_, not_closed⟩))
      rcases mem_assign member with new | old | zero
      · exact not_closed ((fresh.2.2 fd new).2 returned)
      · exact lost old
      · subst zero
        exact zero_foreign (List.mem_append_left _ returned)
  | stop =>
    cases Option.some.inj move
    exact Or.inr (spoiled.stop)
  | wait =>
    cases Option.some.inj move
    exact spoiled
  | destroy =>
    cases Option.some.inj move
    rcases spoiled.stop with shut | closed | ⟨fd, returned, lost, not_closed⟩
    · exact Or.inr (Or.inl shut)
    · exact Or.inr (Or.inr (Or.inl (List.mem_append_left _ closed)))
    · refine Or.inr (Or.inr (Or.inr ⟨fd, returned, List.not_mem_nil, fun member => ?_⟩))
      rcases List.mem_append.mp member with old | now
      · exact not_closed old
      · exact lost (List.mem_filter.mp now).1

/-- A call that is not clean spoils a sound server. -/
theorem Kept.spoil (kept : Kept s) (unclean : ¬ s.clean a = true) (move : step s a = some s') : Spoiled s' := by
  obtain ⟨_, move⟩ := Option.ite_none_left_eq_some.mp move
  cases a with
  | start made =>
    obtain ⟨⟨fresh, _⟩, moved⟩ := Option.ite_none_right_eq_some.mp move
    cases Option.some.inj moved
    simp only [Sockets.clean, Bool.or_eq_true, not_or] at unclean
    obtain ⟨stopped, unclean⟩ := unclean
    rw [Sockets.start, if_neg stopped]
    by_cases first : s.listenFds = []
    · rw [if_pos first, decide_eq_true_eq] at unclean
      have few : made.length < s.workerThreads := lt_of_le_of_ne fresh.1 unclean
      refine Or.inl ⟨List.mem_append_right _ ?_, rfl, kept.alive⟩
      rw [first, resize, List.take_nil, List.nil_append, List.length_nil, Nat.sub_zero, List.drop_replicate]
      exact List.mem_replicate.mpr ⟨by omega, rfl⟩
    · rw [if_neg first, decide_eq_true_eq] at unclean
      have whole : resize s.listenFds s.workerThreads = s.listenFds := by
        have length := kept.full.resolve_left first
        simp [resize, length, List.take_of_length_le length.le]
      rw [whole]
      cases fds : s.listenFds with
      | nil => exact absurd fds first
      | cons fd rest =>
        have nodup := kept.nodup
        rw [← kept.own, fds, List.nodup_cons] at nodup
        have returned : fd ∈ s.returned := kept.own ▸ fds ▸ List.mem_cons_self ..
        refine Or.inr (Or.inr (Or.inr ⟨fd, List.mem_append_left _ returned, fun member => ?_, ?_⟩))
        · -- the first element has been overwritten, and occurs nowhere else
          rcases List.mem_append.mp member with new | old
          · have closed := (fresh.2.2 fd new).2 returned
            rw [kept.closed] at closed
            cases closed
          · cases made with
            | nil => exact unclean rfl
            | cons => exact nodup.1 (List.mem_of_mem_drop old)
        · rw [kept.closed]
          exact List.not_mem_nil
  | stop | wait | destroy => exact absurd rfl unclean

theorem Spoiled.not_owned (spoiled : Spoiled s) (gone : s.destroyed = true) (zero_foreign : 0 ∉ s.returned) :
    ¬ Owned s := by
  rintro ⟨own, once⟩
  rcases spoiled with ⟨_, _, alive⟩ | shut | closed | ⟨fd, returned, _, not_closed⟩
  · exact absurd (gone.symm.trans alive) (by decide)
  · exact zero_foreign (own 0 (Or.inl shut))
  · exact zero_foreign (own 0 (Or.inr closed))
  · have count := once gone fd returned
    rw [List.count_eq_zero_of_not_mem not_closed] at count
    cases count

theorem make_sound (workerThreads : Nat) : Sound (make workerThreads) := by
  refine Or.inl ⟨?_, rfl, List.nodup_nil, nofun, Or.inl rfl, nofun, rfl, rfl⟩
  simp only [make]
  split <;> omega

theorem run_sound {workerThreads : Nat} {calls : List Call}
    (reach : RunWhile step (fun s a => s.clean a = true) (make workerThreads) calls s) : Sound s :=
  reach.invariant (P := Sound) (make_sound workerThreads) fun sound clean move => sound.step clean move

theorem returned_mono (move : step s a = some s') {fd : Int} (member : fd ∈ s.returned) : fd ∈ s'.returned := by
  obtain ⟨_, move⟩ := Option.ite_none_left_eq_some.mp move
  have stopped : s.stop.returned = s.returned := by
    unfold Sockets.stop
    split <;> rfl
  cases a with
  | start made =>
    obtain ⟨_, moved⟩ := Option.ite_none_right_eq_some.mp move
    cases Option.some.inj moved
    unfold Sockets.start
    split
    · exact member
    · exact List.mem_append_left _ member
  | stop =>
    cases Option.some.inj move
    rwa [stopped]
  | wait =>
    cases Option.some.inj move
    exact member
  | destroy =>
    cases Option.some.inj move
    simpa [Sockets.destroy, stopped] using member

/-- Every run either is clean or has spoiled the server. -/
theorem run_clean_or_spoiled {workerThreads : Nat} {calls : List Call} (reach : Run step (make workerThreads) calls s)
    (zero_foreign : 0 ∉ s.returned) :
    RunWhile step (fun s a => s.clean a = true) (make workerThreads) calls s ∨ Spoiled s := by
  have decided : RunWhile step (fun s a => s.clean a = true) (make workerThreads) calls s ∨
      (0 ∉ s.returned → Spoiled s) := by
    refine reach.meets_or (P := fun s => 0 ∉ s.returned → Spoiled s) (fun {_ t _ _} good move unclean _ => ?_) ?_
    · have kept : Kept t := (run_sound good).resolve_right fun gone => by
        obtain ⟨alive, _⟩ := Option.ite_none_left_eq_some.mp move
        exact alive gone.1
      exact kept.spoil unclean move
    · intro _ t _ _ _ move spoiled foreign
      exact (spoiled fun member => foreign (returned_mono move member)).step move foreign
  exact decided.imp_right fun spoiled => spoiled zero_foreign

/-- The listening sockets are well kept while every `start` is clean; and if
descriptor zero is open elsewhere in the process, only then. -/
theorem listen_sockets_owned (workerThreads : Nat) :
    (∀ (calls : List Call) (s : Sockets),
      RunWhile step (fun s a => s.clean a = true) (make workerThreads) calls s → Owned s) ∧
    ∀ (calls : List Call) (s : Sockets), Run step (make workerThreads) calls s → s.destroyed = true → 0 ∉ s.returned →
      (Owned s ↔ RunWhile step (fun s a => s.clean a = true) (make workerThreads) calls s) := by
  have enough : ∀ (calls : List Call) (s : Sockets),
      RunWhile step (fun s a => s.clean a = true) (make workerThreads) calls s → Owned s := by
    intro calls s reach
    rcases run_sound reach with kept | ⟨_, owned⟩
    · exact kept.owned
    · exact owned
  refine ⟨enough, fun calls s reach gone zero_foreign => ⟨fun owned => ?_, enough calls s⟩⟩
  exact (run_clean_or_spoiled reach zero_foreign).resolve_right
    fun spoiled => spoiled.not_owned gone zero_foreign owned

/-- The second start fails at its first socket. -/
def cleanLife : List Call := [.start [5, 6], .start [], .stop, .wait, .start [], .destroy]

theorem clean_life_owned : Owned (after step (make 2) cleanLife) := by
  have reach : RunWhile step (fun s a => s.clean a = true) (make 2) cleanLife (after step (make 2) cleanLife) :=
    guarded_run (run_eq_some rfl)
  exact (listen_sockets_owned 2).1 _ _ reach

/-- The second socket of two cannot be made. -/
def failedStart : List Call := [.start [5], .destroy]

theorem failed_start_closes_zero :
    ¬ ∀ (workerThreads : Nat) (calls : List Call) (s : Sockets), Run step (make workerThreads) calls s → Owned s := by
  intro claim
  have reach : Run step (make 2) failedStart (after step (make 2) failedStart) := run_eq_some rfl
  have own := (claim 2 failedStart _ reach).1 0
  revert own
  decide

end Sockets

end CoroNet.TcpServer
