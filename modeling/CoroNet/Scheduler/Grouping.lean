import CoroNet.SizeT
import Mathlib.Algebra.Order.Group.Nat
import Mathlib.Algebra.Ring.Int.Defs
import Mathlib.Algebra.Ring.Nat
import Mathlib.Data.List.Basic
import Mathlib.Data.List.GetD
import Mathlib.Data.Nat.Basic
import Mathlib.Order.Lattice

namespace CoroNet.SchedulerPool.Grouping

/-- What of the configuration goes into the parameters of the ring. -/
structure SchedulerConfig where
  ringEntries : Nat := 8192
  sqpoll : Bool := false
  sqThreadIdleMs : Nat := 1000
  wqFd : Int := -1
  sqThreadCpu : Int := -1

/-- The setup flags of a ring. -/
structure Flags where
  coopTaskrun : Bool := false
  sqpoll : Bool := false
  attachWq : Bool := false
  sqAff : Bool := false

/-- How the kernel answers `io_uring_queue_init_params` while the given
descriptors of rings are open: with a new descriptor or with an error. -/
structure Kernel where
  queueInit : List Int → SchedulerConfig → Flags → Option Int
  fresh : ∀ {fds cfg flags fd}, queueInit fds cfg flags = some fd → 0 ≤ fd ∧ fd ∉ fds

/-- A scheduler of the pool: its configuration, the descriptor of its ring and
the flags the kernel took. -/
structure Scheduler where
  cfg : SchedulerConfig
  ringFd : Int
  flags : Flags

namespace Scheduler

/-- The ring is not to share the thread of another one. -/
def leader (s : Scheduler) : Bool := s.cfg.wqFd = -1

end Scheduler

def full (p : SchedulerConfig) : Flags where
  coopTaskrun := true
  sqpoll := p.sqpoll
  attachWq := decide (p.wqFd ≥ 0)
  sqAff := p.sqpoll && decide (p.sqThreadCpu ≥ 0)

/-- The flags to try, in this order. -/
def candidates (p : SchedulerConfig) : List Flags :=
  [full p] ++
  (if (full p).sqAff then [{ full p with sqAff := false }] else []) ++
  (if (full p).coopTaskrun then [{ full p with sqAff := false, coopTaskrun := false }] else []) ++
  [{ coopTaskrun := true }, { coopTaskrun := false }]

/-- The constructor of `IoUring`; the empty answer is the exception. -/
def ioUring (kernel : Kernel) (fds : List Int) (p : SchedulerConfig) : Option (Int × Flags) :=
  (candidates p).findSome? fun flags => (kernel.queueInit fds p flags).map fun fd => (fd, flags)

section Constructor

variable (kernel : Kernel) (base : SchedulerConfig) (n M : Nat) (sqpollCpus : List Int)

/-- The size of a group, when there are groups. -/
def gsz : Nat :=
  if base.sqpoll = true ∧ M > 0 then SizeT.sub (SizeT.add n M) 1 / M else 1

/-- The configuration of scheduler `i`, given those made before it. -/
def config (schedulers : List Scheduler) (i : Nat) : Option SchedulerConfig :=
  let cfg := { base with wqFd := -1, sqThreadCpu := -1 }
  if base.sqpoll = true ∧ M > 0 then
    let g := i / gsz base n M
    let leader := g * gsz base n M
    if i = leader then
      if h : g < sqpollCpus.length then some { cfg with sqThreadCpu := sqpollCpus[g] } else some cfg
    else schedulers[leader]?.map fun s => { cfg with wqFd := s.ringFd }
  else some cfg

/-- The loop of the constructor, up to scheduler `i`. -/
def construct : Nat → Option (List Scheduler)
  | 0 => some []
  | i + 1 => do
    let schedulers ← construct i
    let cfg ← config base n M sqpollCpus schedulers i
    let (fd, flags) ← ioUring kernel (schedulers.map (·.ringFd)) cfg
    return schedulers ++ [⟨cfg, fd, flags⟩]

/-- The most pointers a vector holds. -/
def maxSize : Nat := 2 ^ 60 - 1

/-- The constructor of `SchedulerPool`; the empty answer is an exception, of
`reserve` or of a ring. -/
def make : Option (List Scheduler) :=
  if n ≤ maxSize then construct kernel base n M sqpollCpus n else none

end Constructor

section Requests

variable (kernel : Kernel) (base : SchedulerConfig) (sqpollCpus : List Int)

/-- The configuration of ring `i` in groups of `size`, the rings before it
having these descriptors. -/
def request (size : Nat) (fds : List Int) (i : Nat) : SchedulerConfig :=
  if size ∣ i then { base with wqFd := -1, sqThreadCpu := sqpollCpus.getD (i / size) (-1) }
  else { base with wqFd := fds.getD (i / size * size) (-1), sqThreadCpu := -1 }

/-- The candidates that ask for a polling thread. -/
def polling (p : SchedulerConfig) : List Flags := (candidates p).filter (·.sqpoll)

/-- The size that makes no more than `M` groups of `n` rings. -/
def groupSize (n M : Nat) : Nat := (n + M - 1) / M

/-- The kernel makes the rings with these descriptors, each as soon as it is
asked for it with a polling thread. Where every group has a core, it takes the
first of a group with all its flags. -/
structure Granted (n M : Nat) (fds : List Int) : Prop where
  length : fds.length = n
  polled : ∀ i < n, (polling (request base sqpollCpus (groupSize n M) fds i)).findSome?
    (kernel.queueInit (fds.take i) (request base sqpollCpus (groupSize n M) fds i)) = fds[i]?
  pinned : min n M ≤ sqpollCpus.length → ∀ i < n, groupSize n M ∣ i →
    0 ≤ (request base sqpollCpus (groupSize n M) fds i).sqThreadCpu ∧
      kernel.queueInit (fds.take i) (request base sqpollCpus (groupSize n M) fds i)
        (full (request base sqpollCpus (groupSize n M) fds i)) ≠ none

end Requests

variable {kernel : Kernel} {base cfg : SchedulerConfig} {n M i size : Nat} {sqpollCpus fds : List Int}
variable {schedulers : List Scheduler} {s t : Scheduler} {fd : Int} {flags : Flags}

theorem candidates_polling (sqpoll : cfg.sqpoll = true) :
    candidates cfg = polling cfg ++ [{ coopTaskrun := true }, { coopTaskrun := false }] := by
  by_cases pins : (full cfg).sqAff = true <;> simp [polling, candidates, pins] <;> simp [full, sqpoll]

theorem ioUring_spec (made : ioUring kernel fds cfg = some (fd, flags)) :
    kernel.queueInit fds cfg flags = some fd ∧ flags ∈ candidates cfg ∧ 0 ≤ fd ∧ fd ∉ fds := by
  obtain ⟨tried, mem, taken⟩ := List.exists_of_findSome?_eq_some made
  obtain ⟨answer, init, same⟩ := Option.map_eq_some_iff.mp taken
  cases same
  exact ⟨init, mem, kernel.fresh init⟩

/-- The descriptor does not depend on whether the flags are remembered. -/
theorem findSome_answer (l : List Flags) :
    (l.findSome? fun flags => (kernel.queueInit fds cfg flags).map fun fd => (fd, flags)).map Prod.fst =
      l.findSome? (kernel.queueInit fds cfg) := by
  rw [List.map_findSome?]
  congr 1
  funext flags
  rw [Function.comp_apply, Option.map_map]
  exact Option.map_id'

/-- The ring polls when the kernel takes one of the candidates that ask for it. -/
theorem ioUring_polls_iff (sqpoll : cfg.sqpoll = true) :
    (∃ flags, ioUring kernel fds cfg = some (fd, flags) ∧ flags.sqpoll = true) ↔
      (polling cfg).findSome? (kernel.queueInit fds cfg) = some fd := by
  rw [← findSome_answer, ioUring, candidates_polling sqpoll, List.findSome?_append]
  cases answer : (polling cfg).findSome? fun flags => (kernel.queueInit fds cfg flags).map fun fd => (fd, flags) with
  | none =>
    -- what is left asks for no thread
    simp only [Option.none_or, Option.map_none, reduceCtorEq, iff_false]
    rintro ⟨flags, taken, polls⟩
    obtain ⟨tried, mem, taken⟩ := List.exists_of_findSome?_eq_some taken
    obtain ⟨answer, init, same⟩ := Option.map_eq_some_iff.mp taken
    cases same
    simp only [List.mem_cons, List.not_mem_nil, or_false] at mem
    rcases mem with rfl | rfl <;> cases polls
  | some found =>
    obtain ⟨given, taken⟩ := found
    have polls : taken.sqpoll = true := by
      obtain ⟨tried, mem, made⟩ := List.exists_of_findSome?_eq_some answer
      obtain ⟨_, _, same⟩ := Option.map_eq_some_iff.mp made
      cases same
      exact (List.mem_filter.mp mem).2
    simp only [Option.some_or, Option.map_some, Option.some.injEq, Prod.mk.injEq]
    constructor
    · rintro ⟨_, ⟨same, _⟩, _⟩
      exact same
    · intro same
      exact ⟨taken, ⟨same, rfl⟩, polls⟩

/-- The first of a group comes before the others. -/
theorem first_before (member : ¬ size ∣ i) : i / size * size < i := by
  have le := Nat.div_mul_le_self i size
  have ne : i / size * size ≠ i := fun same => member ⟨_, same.symm.trans (Nat.mul_comm _ _)⟩
  omega

@[simp] theorem request_sqpoll : (request base sqpollCpus size fds i).sqpoll = base.sqpoll := by
  unfold request
  split <;> rfl

/-- A request depends on the rings before it only. -/
theorem request_append (base : SchedulerConfig) (sqpollCpus : List Int) (size : Nat) (more : List Int)
    (before : i ≤ fds.length) : request base sqpollCpus size (fds ++ more) i = request base sqpollCpus size fds i := by
  unfold request
  split
  next => rfl
  next member =>
    have older := first_before member
    rw [List.getD_append _ _ _ _ (by omega)]

theorem request_take : request base sqpollCpus size (fds.take i) i = request base sqpollCpus size fds i := by
  rcases Nat.le_total i fds.length with within | short
  · have room : i ≤ (fds.take i).length := by
      rw [List.length_take]
      omega
    have same := request_append base sqpollCpus size (fds.drop i) room
    rw [List.take_append_drop] at same
    exact same.symm
  · rw [List.take_of_length_le short]

/-- The others ask for the thread of the first of their group. -/
theorem request_member (base : SchedulerConfig) (sqpollCpus : List Int) (member : ¬ size ∣ i) (before : i ≤ fds.length) :
    fds[i / size * size]? = some (request base sqpollCpus size fds i).wqFd := by
  have older := first_before member
  have within : i / size * size < fds.length := by omega
  rw [request, if_neg member, List.getD_eq_getElem _ _ within, List.getElem?_eq_getElem within]

/-- Only the first of a group asks for no descriptor. -/
theorem request_leads (nonneg : ∀ fd ∈ fds, 0 ≤ fd) (before : i ≤ fds.length) :
    (request base sqpollCpus size fds i).wqFd = -1 ↔ size ∣ i := by
  by_cases first : size ∣ i
  · simp [request, first]
  · have taken := nonneg _ (List.mem_of_getElem? (request_member base sqpollCpus first before))
    simp only [first, iff_false]
    omega

theorem config_eq (grouping : base.sqpoll = true ∧ M > 0) (length : schedulers.length = i) :
    config base n M sqpollCpus schedulers i =
      some (request base sqpollCpus (gsz base n M) (schedulers.map (·.ringFd)) i) := by
  rw [config, if_pos grouping, request]
  by_cases first : gsz base n M ∣ i
  · rw [if_pos (Nat.div_mul_cancel first).symm, if_pos first]
    by_cases pinned : i / gsz base n M < sqpollCpus.length
    · rw [dif_pos pinned, List.getD_eq_getElem _ _ pinned]
    · rw [dif_neg pinned, List.getD_eq_default _ _ (by omega)]
  · have older := first_before first
    have here : schedulers[i / gsz base n M * gsz base n M]? = some schedulers[i / gsz base n M * gsz base n M] :=
      List.getElem?_eq_getElem (by omega)
    rw [if_neg (by omega), if_neg first, here, List.getD_eq_getElem _ _ (by rw [List.length_map]; omega)]
    simp

/-- The number of groups that the first `i` schedulers are in. -/
def groups (size i : Nat) : Nat := (i + size - 1) / size

theorem groups_succ {size : Nat} (pos : 0 < size) (i : Nat) :
    groups size (i + 1) = groups size i + if size ∣ i then 1 else 0 := by
  have shift : i + 1 + size - 1 = i + size - 1 + 1 := by omega
  have last : size ∣ i + size - 1 + 1 ↔ size ∣ i := by
    rw [show i + size - 1 + 1 = i + size by omega]
    exact Nat.dvd_add_self_right
  simp only [groups, shift, Nat.succ_div, last]

theorem groups_first {size : Nat} (pos : 0 < size) (first : size ∣ i) : groups size i = i / size := by
  obtain ⟨q, rfl⟩ := first
  rw [groups, Nat.mul_div_cancel_left q pos, Nat.add_sub_assoc pos, Nat.mul_add_div pos,
    Nat.div_eq_of_lt (Nat.sub_lt pos Nat.one_pos), Nat.add_zero]

/-- What the loop has made of the first `i` schedulers, in groups of `size`. -/
structure Constructed (kernel : Kernel) (base : SchedulerConfig) (sqpollCpus : List Int) (size i : Nat)
    (schedulers : List Scheduler) : Prop where
  length : schedulers.length = i
  fds : (schedulers.map (·.ringFd)).Nodup
  nonneg : ∀ s ∈ schedulers, 0 ≤ s.ringFd
  made : ∀ (j : Nat) (s : Scheduler), schedulers[j]? = some s →
    s.cfg = request base sqpollCpus size (schedulers.map (·.ringFd)) j ∧
      ioUring kernel ((schedulers.map (·.ringFd)).take j) s.cfg = some (s.ringFd, s.flags)
  count : schedulers.countP (·.leader) = groups size i
  cpus : groups size i ≤ sqpollCpus.length →
    (schedulers.filter (·.leader)).map (·.cfg.sqThreadCpu) = sqpollCpus.take (groups size i)

theorem Constructed.none (pos : 0 < size) : Constructed kernel base sqpollCpus size 0 [] := by
  have no_group : groups size 0 = 0 := by
    rw [groups_first pos (Nat.dvd_zero size), Nat.zero_div]
  exact ⟨rfl, List.nodup_nil, by simp, by simp, by simp [no_group], by simp [no_group]⟩

/-- The last of a list, or one before it. -/
theorem getElem?_last {α : Type*} {l : List α} {x y : α} {j : Nat} (here : (l ++ [x])[j]? = some y) :
    l[j]? = some y ∨ j = l.length ∧ y = x := by
  by_cases old : j < l.length
  · rw [List.getElem?_append_left old] at here
    exact Or.inl here
  · rw [List.getElem?_append_right (by omega)] at here
    obtain ⟨zero, same⟩ := List.getElem?_eq_some_iff.mp here
    simp only [List.length_singleton] at zero
    exact Or.inr ⟨by omega, by simpa using same.symm⟩

namespace Constructed

theorem fds_nonneg (done : Constructed kernel base sqpollCpus size i schedulers) :
    ∀ fd ∈ schedulers.map (·.ringFd), 0 ≤ fd := by
  intro fd mem
  obtain ⟨s, before, rfl⟩ := List.mem_map.mp mem
  exact done.nonneg s before

theorem next (done : Constructed kernel base sqpollCpus size i schedulers) (pos : 0 < size)
    (ring : ioUring kernel (schedulers.map (·.ringFd))
      (request base sqpollCpus size (schedulers.map (·.ringFd)) i) = some (fd, flags)) :
    Constructed kernel base sqpollCpus size (i + 1)
      (schedulers ++ [⟨request base sqpollCpus size (schedulers.map (·.ringFd)) i, fd, flags⟩]) := by
  obtain ⟨-, -, nonneg, fresh⟩ := ioUring_spec ring
  have width : (schedulers.map (·.ringFd)).length = i := (List.length_map ..).trans done.length
  have leads : (Scheduler.mk (request base sqpollCpus size (schedulers.map (·.ringFd)) i) fd flags).leader = true ↔
      size ∣ i := decide_eq_true_iff.trans (request_leads done.fds_nonneg width.ge)
  constructor
  case length => simp [done.length]
  case fds =>
    rw [List.map_append, List.nodup_append]
    refine ⟨done.fds, by simp, ?_⟩
    intro a mem b here
    cases List.mem_singleton.mp here
    intro same
    exact fresh (by simpa only [same] using mem)
  case nonneg =>
    rw [List.forall_mem_append, List.forall_mem_singleton]
    exact ⟨done.nonneg, nonneg⟩
  case made =>
    intro j s at_j
    rw [List.map_append]
    rcases getElem?_last at_j with old | ⟨rfl, rfl⟩
    · have before : j < (schedulers.map (·.ringFd)).length := by
        rw [List.length_map]
        exact (List.getElem?_eq_some_iff.mp old).1
      rw [request_append _ _ _ _ before.le, List.take_append_of_le_length before.le]
      exact done.made j s old
    · rw [done.length, request_append _ _ _ _ width.ge, List.take_append_of_le_length width.ge,
        List.take_of_length_le width.le]
      exact ⟨rfl, ring⟩
  case count =>
    rw [List.countP_append, done.count, groups_succ pos, List.countP_singleton]
    simp only [leads]
  case cpus =>
    intro enough
    rw [groups_succ pos] at enough ⊢
    rw [List.filter_append, List.map_append, done.cpus (by omega)]
    by_cases first : size ∣ i
    · rw [if_pos first, groups_first pos first] at enough
      rw [if_pos first, groups_first pos first, List.take_add_one, List.getElem?_eq_getElem (by omega)]
      have own : (request base sqpollCpus size (schedulers.map (·.ringFd)) i).sqThreadCpu = sqpollCpus[i / size] := by
        rw [request, if_pos first, List.getD_eq_getElem _ _ (by omega)]
      simp [leads.mpr first, own]
    · have follows : (Scheduler.mk (request base sqpollCpus size (schedulers.map (·.ringFd)) i) fd flags).leader = false :=
        by simpa using mt leads.mp first
      simp [if_neg first, follows]

/-- Every other ring asks for the thread of the first of its group. -/
theorem member (done : Constructed kernel base sqpollCpus size i schedulers) {j : Nat}
    (at_j : schedulers[j]? = some s) (member : ¬ size ∣ j) :
    ∃ t : Scheduler, schedulers[j / size * size]? = some t ∧ s.cfg.wqFd = t.ringFd := by
  have within : j ≤ (schedulers.map (·.ringFd)).length := by
    rw [List.length_map]
    exact (List.getElem?_eq_some_iff.mp at_j).1.le
  have asked := request_member base sqpollCpus member within
  rw [← (done.made j s at_j).1, List.getElem?_map] at asked
  obtain ⟨t, before, same⟩ := Option.map_eq_some_iff.mp asked
  exact ⟨t, before, same.symm⟩

end Constructed

theorem construct_constructed (grouping : base.sqpoll = true ∧ M > 0) (pos : 0 < gsz base n M)
    (made : construct kernel base n M sqpollCpus i = some schedulers) :
    Constructed kernel base sqpollCpus (gsz base n M) i schedulers := by
  induction i generalizing schedulers with
  | zero =>
    cases Option.some.inj made
    exact Constructed.none pos
  | succ i ih =>
    simp only [construct, Option.bind_eq_bind, Option.bind_eq_some_iff] at made
    obtain ⟨before, before_eq, cfg, cfg_eq, ⟨fd, flags⟩, ring, done⟩ := made
    cases Option.some.inj done
    have held := ih before_eq
    cases (config_eq grouping held.length).symm.trans cfg_eq
    exact held.next pos ring

/-- The constructor goes through with the descriptors the kernel gives. -/
theorem Granted.construct (granted : Granted kernel base sqpollCpus n M fds) (grouping : base.sqpoll = true ∧ M > 0)
    (size : gsz base n M = groupSize n M) (pos : 0 < groupSize n M) (within : i ≤ n) :
    ∃ schedulers, construct kernel base n M sqpollCpus i = some schedulers ∧
      schedulers.map (·.ringFd) = fds.take i := by
  induction i with
  | zero => exact ⟨[], rfl, rfl⟩
  | succ i ih =>
    obtain ⟨schedulers, before, descriptors⟩ := ih (by omega)
    have done := construct_constructed grouping (size ▸ pos) before
    have configured : config base n M sqpollCpus schedulers i = _ := config_eq grouping done.length
    rw [descriptors, request_take, size] at configured
    have inside : i < fds.length := granted.length.symm ▸ within
    have here : fds[i]? = some fds[i] := List.getElem?_eq_getElem inside
    obtain ⟨flags, ring, -⟩ := (ioUring_polls_iff (request_sqpoll.trans grouping.1)).mpr
      ((granted.polled i (by omega)).trans here)
    rw [← descriptors] at ring
    refine ⟨schedulers ++ [⟨request base sqpollCpus (groupSize n M) fds i, fds[i], flags⟩], ?_, ?_⟩
    · simp [SchedulerPool.Grouping.construct, before, configured, ring]
    · rw [List.map_append, descriptors, List.take_add_one, here]
      rfl

end CoroNet.SchedulerPool.Grouping
