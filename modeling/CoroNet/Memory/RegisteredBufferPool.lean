import CoroNet.General.Runs
import CoroNet.SizeT
import Mathlib.Algebra.Ring.Int.Defs
import Mathlib.Data.List.Perm.Basic
import Mathlib.Data.List.Nodup
import Mathlib.Order.Lattice

namespace CoroNet

open Transition

/-- An arena cut into slots, with the stack of those that are free. The arena
is an address, zero when there is none. -/
structure RegisteredBufferPool where
  arena : Nat := 0
  slotSize : UInt32
  capacity : UInt32
  freeList : List Int := []
  enabled : Bool := false
  regErrno : Int := 0

namespace RegisteredBufferPool

def kMaxRegBuffers : UInt32 := 16384

/-- The pool that is constructed when the allocator answers this way and the
registration of the buffers returns `ret`. -/
def make (capacity slotSize : UInt32) (memalign : Nat → Option Nat) (ret : Int) : RegisteredBufferPool :=
  if capacity = 0 ∨ slotSize = 0 then { slotSize := slotSize, capacity := capacity }
  else
    let capacity := if kMaxRegBuffers < capacity then kMaxRegBuffers else capacity
    match memalign (SizeT.mul capacity.toNat slotSize.toNat) with
    | none => { slotSize := slotSize, capacity := capacity }
    | some p =>
      if ret < 0 then { slotSize := slotSize, capacity := capacity, regErrno := -ret }
      else
        { arena := p
          slotSize := slotSize
          capacity := capacity
          freeList := (List.range capacity.toNat).reverse.map Int.ofNat
          enabled := true }

/-- The index on top of the stack, or `-1`. -/
def acquire (pool : RegisteredBufferPool) : Int × RegisteredBufferPool :=
  if pool.enabled = false then (-1, pool)
  else match pool.freeList.getLast? with
    | none => (-1, pool)
    | some idx => (idx, { pool with freeList := pool.freeList.dropLast })

def release (pool : RegisteredBufferPool) (idx : Int) : RegisteredBufferPool :=
  if idx < 0 then pool else { pool with freeList := pool.freeList ++ [idx] }

def slotPtr (pool : RegisteredBufferPool) (idx : Int) : Nat :=
  SizeT.add pool.arena (SizeT.mul (idx % 2 ^ 64).toNat pool.slotSize.toNat)

end RegisteredBufferPool

/-- The part of a connection that has to do with its slot. -/
structure TcpConnection where
  bufIndex : Int := -1
  slot : Nat := 0
  slotSize : Nat := 0

def TcpConnection.hasFixedSlot (c : TcpConnection) : Bool := 0 ≤ c.bufIndex

namespace SlotOwners

/-- A worker's pool, if the scheduler kept it, and the live connections. -/
structure World where
  bufPool : Option RegisteredBufferPool
  conns : List TcpConnection := []

/-- A connection is constructed, or the `k`-th live one destroyed. -/
inductive Act
  | construct
  | destroy (k : Nat)

/-- The scheduler drops a pool that is not enabled. -/
def start (pool : RegisteredBufferPool) : World :=
  { bufPool := if pool.enabled then some pool else none }

def World.construct (w : World) : World :=
  match w.bufPool with
  | none => { w with conns := w.conns ++ [{}] }
  | some pool =>
    let (idx, rest) := pool.acquire
    if 0 ≤ idx then
      { bufPool := some rest, conns := w.conns ++ [⟨idx, rest.slotPtr idx, rest.slotSize.toNat⟩] }
    else { bufPool := some rest, conns := w.conns ++ [{}] }

def World.destroy (w : World) (k : Nat) (c : TcpConnection) : World where
  bufPool := if c.hasFixedSlot then w.bufPool.map fun pool => pool.release c.bufIndex else w.bufPool
  conns := w.conns.eraseIdx k

def step (w : World) : Act → Option World
  | .construct => some w.construct
  | .destroy k => w.conns[k]?.map fun c => w.destroy k c

/-- The slots held by live connections. -/
def World.held (w : World) : List Int := (w.conns.filter TcpConnection.hasFixedSlot).map TcpConnection.bufIndex

/-- All slots of a pool. -/
def indices (capacity : UInt32) : List Int := (List.range capacity.toNat).map Int.ofNat

/-- A connection that has a slot keeps the address of the slot. -/
def Placed (pool : RegisteredBufferPool) (c : TcpConnection) : Prop :=
  c.hasFixedSlot = true → c.slot = pool.slotPtr c.bufIndex ∧ c.slotSize = pool.slotSize.toNat

/-- Every slot is free or held by one connection. -/
structure Accounted (pool : RegisteredBufferPool) (w : World) (free : List Int) : Prop where
  kept : w.bufPool = some { pool with freeList := free }
  slots : (free ++ w.held).Perm (indices pool.capacity)
  placed : ∀ c ∈ w.conns, Placed pool c

variable {pool : RegisteredBufferPool} {w w' : World} {free : List Int} {a : Act}

theorem mem_indices {capacity : UInt32} {i : Int} : i ∈ indices capacity ↔ 0 ≤ i ∧ i < capacity.toNat := by
  simp only [indices, List.mem_map, List.mem_range]
  constructor
  · rintro ⟨k, below, rfl⟩
    exact ⟨Int.natCast_nonneg k, Int.ofNat_lt.mpr below⟩
  · rintro ⟨nonneg, below⟩
    exact ⟨i.toNat, by omega, Int.toNat_of_nonneg nonneg⟩

theorem indices_nodup (capacity : UInt32) : (indices capacity).Nodup :=
  List.nodup_range.map fun _ _ same => Int.ofNat.inj same

theorem Accounted.construct (accounted : Accounted pool w free) (enabled : pool.enabled = true) :
    ∃ rest, Accounted pool w.construct rest := by
  have slots := accounted.slots
  cases top : free.getLast? with
  | none =>
    have acquired : RegisteredBufferPool.acquire { pool with freeList := free } = (-1, { pool with freeList := free }) := by
      simp [RegisteredBufferPool.acquire, enabled, top]
    have next : w.construct = { bufPool := some { pool with freeList := free }, conns := w.conns ++ [{}] } := by
      simp [World.construct, accounted.kept, acquired]
    refine ⟨free, ?_⟩
    rw [next]
    refine ⟨rfl, ?_, ?_⟩
    · simpa [World.held, TcpConnection.hasFixedSlot] using slots
    · intro c member
      rcases List.mem_append.mp member with old | new
      · exact accounted.placed c old
      · rw [List.mem_singleton.mp new]
        nofun
  | some idx =>
    have split := List.dropLast_append_getLast? idx top
    have free_idx : idx ∈ indices pool.capacity :=
      slots.mem_iff.mp (List.mem_append_left _ (split ▸ List.mem_append_right _ (List.mem_singleton_self _)))
    have nonneg := (mem_indices.mp free_idx).1
    have acquired : RegisteredBufferPool.acquire { pool with freeList := free } =
        (idx, { pool with freeList := free.dropLast }) := by
      simp [RegisteredBufferPool.acquire, enabled, top]
    have next : w.construct =
        ⟨some { pool with freeList := free.dropLast }, w.conns ++ [⟨idx, pool.slotPtr idx, pool.slotSize.toNat⟩]⟩ := by
      simp [World.construct, accounted.kept, acquired, nonneg, RegisteredBufferPool.slotPtr]
    refine ⟨free.dropLast, ?_⟩
    rw [next]
    refine ⟨rfl, ?_, ?_⟩
    · -- the index has moved from the end of the stack to the end of those held
      have moved : (free.dropLast ++ (w.held ++ [idx])).Perm (free ++ w.held) := by
        rw [← split, List.append_assoc, List.dropLast_concat]
        exact List.perm_append_comm.append_left _
      have held : World.held ⟨some { pool with freeList := free.dropLast },
          w.conns ++ [⟨idx, pool.slotPtr idx, pool.slotSize.toNat⟩]⟩ = w.held ++ [idx] := by
        simp [World.held, TcpConnection.hasFixedSlot, nonneg]
      rw [held]
      exact moved.trans slots
    · intro c member
      rcases List.mem_append.mp member with old | new
      · exact accounted.placed c old
      · rw [List.mem_singleton.mp new]
        exact fun _ => ⟨rfl, rfl⟩

theorem Accounted.destroy (accounted : Accounted pool w free) {k : Nat} {c : TcpConnection}
    (here : w.conns[k]? = some c) : ∃ rest, Accounted pool (w.destroy k c) rest := by
  obtain ⟨inside, rfl⟩ := List.getElem?_eq_some_iff.mp here
  have erased : (w.conns[k] :: w.conns.eraseIdx k).Perm w.conns := List.getElem_cons_eraseIdx_perm inside
  have placed : ∀ c ∈ w.conns.eraseIdx k, Placed pool c :=
    fun c member => accounted.placed c (List.mem_of_mem_eraseIdx member)
  have held := (erased.filter TcpConnection.hasFixedSlot).map TcpConnection.bufIndex
  by_cases slot : w.conns[k].hasFixedSlot = true
  · have nonneg : ¬ w.conns[k].bufIndex < 0 := by simpa [TcpConnection.hasFixedSlot] using slot
    rw [List.filter_cons_of_pos slot, List.map_cons] at held
    refine ⟨free ++ [w.conns[k].bufIndex], ?_, ?_, placed⟩
    · simp [World.destroy, slot, accounted.kept, RegisteredBufferPool.release, nonneg]
    · refine List.Perm.trans ?_ accounted.slots
      rw [List.append_assoc]
      exact held.append_left _
  · rw [List.filter_cons_of_neg slot] at held
    refine ⟨free, ?_, ?_, placed⟩
    · simp [World.destroy, slot, accounted.kept]
    · exact (held.append_left _).trans accounted.slots

theorem Accounted.step (accounted : Accounted pool w free) (enabled : pool.enabled = true)
    (move : step w a = some w') : ∃ rest, Accounted pool w' rest := by
  cases a with
  | construct =>
    cases Option.some.inj move
    exact accounted.construct enabled
  | destroy k =>
    obtain ⟨c, here, rfl⟩ := Option.map_eq_some_iff.mp move
    exact accounted.destroy here

/-- What the construction of an enabled pool has done. -/
structure Built (pool : RegisteredBufferPool) : Prop where
  free : pool.freeList.Perm (indices pool.capacity)
  few : pool.capacity.toNat ≤ 16384
  some_bytes : 0 < pool.slotSize.toNat
  arena : pool.arena + pool.capacity.toNat * pool.slotSize.toNat ≤ 2 ^ 64

theorem make_built {capacity slotSize : UInt32} {memalign : Nat → Option Nat} {ret : Int}
    (block : ∀ total p, memalign total = some p → p + total ≤ 2 ^ 64)
    (enabled : (RegisteredBufferPool.make capacity slotSize memalign ret).enabled = true) :
    Built (RegisteredBufferPool.make capacity slotSize memalign ret) := by
  unfold RegisteredBufferPool.make at enabled ⊢
  split at enabled
  · cases enabled
  next used =>
  rw [if_neg used]
  generalize clamped : (if RegisteredBufferPool.kMaxRegBuffers < capacity then RegisteredBufferPool.kMaxRegBuffers
    else capacity) = slots at enabled ⊢
  have few : slots.toNat ≤ 16384 := by
    subst clamped
    split
    · exact le_rfl
    · next within => simpa [UInt32.lt_iff_toNat_lt, RegisteredBufferPool.kMaxRegBuffers] using within
  have size := slotSize.toNat_lt
  have product : slots.toNat * slotSize.toNat ≤ 16384 * 2 ^ 32 := Nat.mul_le_mul few size.le
  cases given : memalign (SizeT.mul slots.toNat slotSize.toNat) with
  | none => simp [given] at enabled
  | some p =>
    by_cases refused : ret < 0
    · simp [given, refused] at enabled
    · have bound := block _ p given
      rw [SizeT.mul_of_lt (by omega)] at bound
      have some_bytes : 0 < slotSize.toNat := by
        refine Nat.pos_of_ne_zero fun zero => used (Or.inr ?_)
        exact UInt32.toNat_inj.mp zero
      simp only [given, if_neg refused]
      exact ⟨(List.reverse_perm _).map _, few, some_bytes, bound⟩

/-- The slots lie side by side in the arena, and no address computed for one
of them wraps. -/
theorem Built.slotPtr (built : Built pool) {i : Int} (inside : i ∈ indices pool.capacity) :
    pool.slotPtr i = pool.arena + i.toNat * pool.slotSize.toNat ∧
      pool.slotPtr i + pool.slotSize.toNat ≤ pool.arena + pool.capacity.toNat * pool.slotSize.toNat := by
  obtain ⟨nonneg, below⟩ := mem_indices.mp inside
  have few := built.few
  have arena := built.arena
  have room : (i.toNat + 1) * pool.slotSize.toNat ≤ pool.capacity.toNat * pool.slotSize.toNat :=
    Nat.mul_le_mul_right _ (by omega)
  have some_bytes := built.some_bytes
  rw [Nat.succ_mul] at room
  have index : (i % 2 ^ 64).toNat = i.toNat := by rw [Int.emod_eq_of_lt nonneg (by omega)]
  have address : pool.slotPtr i = pool.arena + i.toNat * pool.slotSize.toNat := by
    rw [RegisteredBufferPool.slotPtr, index, SizeT.mul_of_lt (by omega), SizeT.add_of_lt (by omega)]
  exact ⟨address, by omega⟩

theorem run_accounted {acts : List Act} (built : Built pool) (enabled : pool.enabled = true)
    (reach : Run step (start pool) acts w) : ∃ free, Accounted pool w free := by
  have initial : Accounted pool (start pool) pool.freeList := by
    refine ⟨by rw [start, if_pos enabled], ?_, nofun⟩
    simpa [World.held, start] using built.free
  exact reach.invariant (P := fun w => ∃ free, Accounted pool w free) ⟨_, initial⟩
    fun ⟨_, accounted⟩ move => accounted.step enabled move

/-- Two ranges of addresses that share none. -/
def Apart (c d : TcpConnection) : Prop := c.slot + c.slotSize ≤ d.slot ∨ d.slot + d.slotSize ≤ c.slot

theorem Accounted.held_nodup (accounted : Accounted pool w free) : w.held.Nodup :=
  ((accounted.slots.nodup_iff.mpr (indices_nodup _)).of_append_right)

theorem Accounted.held_index (accounted : Accounted pool w free) {c : TcpConnection} (live : c ∈ w.conns)
    (slot : c.hasFixedSlot = true) : c.bufIndex ∈ indices pool.capacity :=
  accounted.slots.mem_iff.mp
    (List.mem_append_right _ (List.mem_map.mpr ⟨c, List.mem_filter.mpr ⟨live, slot⟩, rfl⟩))

theorem Accounted.apart (accounted : Accounted pool w free) (built : Built pool) :
    (w.conns.filter TcpConnection.hasFixedSlot).Pairwise Apart := by
  have distinct : (w.conns.filter TcpConnection.hasFixedSlot).Pairwise fun c d => c.bufIndex ≠ d.bufIndex :=
    List.pairwise_map.mp accounted.held_nodup
  refine distinct.imp_of_mem fun {c d} c_live d_live different => ?_
  obtain ⟨c_live, c_slot⟩ := List.mem_filter.mp c_live
  obtain ⟨d_live, d_slot⟩ := List.mem_filter.mp d_live
  have c_index := accounted.held_index c_live c_slot
  have d_index := accounted.held_index d_live d_slot
  have c_nonneg := (mem_indices.mp c_index).1
  have d_nonneg := (mem_indices.mp d_index).1
  obtain ⟨c_place, c_size⟩ := accounted.placed c c_live c_slot
  obtain ⟨d_place, d_size⟩ := accounted.placed d d_live d_slot
  rw [Apart, c_place, c_size, d_place, d_size, (built.slotPtr c_index).1, (built.slotPtr d_index).1]
  rcases Nat.lt_or_gt_of_ne (show c.bufIndex.toNat ≠ d.bufIndex.toNat by omega) with before | after
  · have room : (c.bufIndex.toNat + 1) * pool.slotSize.toNat ≤ d.bufIndex.toNat * pool.slotSize.toNat :=
      Nat.mul_le_mul_right _ before
    rw [Nat.succ_mul] at room
    omega
  · have room : (d.bufIndex.toNat + 1) * pool.slotSize.toNat ≤ c.bufIndex.toNat * pool.slotSize.toNat :=
      Nat.mul_le_mul_right _ after
    rw [Nat.succ_mul] at room
    omega

/-- A new connection goes without a slot when all are held. -/
theorem Accounted.exhausted (accounted : Accounted pool w free) (enabled : pool.enabled = true) :
    (∃ c, w.construct.conns = w.conns ++ [c] ∧ c.hasFixedSlot = false) ↔ w.held.length = pool.capacity.toNat := by
  have slots := accounted.slots
  have count := slots.length_eq
  rw [List.length_append, indices, List.length_map, List.length_range] at count
  cases top : free.getLast? with
  | none =>
    rw [List.getLast?_eq_none_iff] at top
    subst top
    have all : w.held.length = pool.capacity.toNat := by simpa using count
    refine iff_of_true ⟨{}, ?_, rfl⟩ all
    simp [World.construct, accounted.kept, RegisteredBufferPool.acquire, enabled]
  | some idx =>
    have member : idx ∈ free := List.mem_of_getLast? top
    have nonneg := (mem_indices.mp (slots.mem_iff.mp (List.mem_append_left _ member))).1
    have some_free := List.length_pos_of_mem member
    refine iff_of_false ?_ (by omega)
    rintro ⟨c, made, no_slot⟩
    simp only [World.construct, accounted.kept, RegisteredBufferPool.acquire, enabled, top, Bool.true_eq_false, if_false,
      if_pos nonneg] at made
    cases List.singleton_inj.mp (List.append_cancel_left made)
    simp [TcpConnection.hasFixedSlot, nonneg] at no_slot

/-- Slots are exclusive and never leak. -/
theorem slots_exclusive {capacity slotSize : UInt32} {memalign : Nat → Option Nat} {ret : Int} {acts : List Act}
    (block : ∀ total p, memalign total = some p → p + total ≤ 2 ^ 64)
    (made : RegisteredBufferPool.make capacity slotSize memalign ret = pool) (enabled : pool.enabled = true)
    (reach : Run step (start pool) acts w) :
    w.held.Nodup ∧
      (∀ c ∈ w.conns, c.hasFixedSlot = true → 0 ≤ c.bufIndex ∧ c.bufIndex < pool.capacity.toNat ∧
        c.slot = pool.arena + c.bufIndex.toNat * pool.slotSize.toNat ∧ c.slotSize = pool.slotSize.toNat ∧
        c.slot + c.slotSize ≤ pool.arena + pool.capacity.toNat * pool.slotSize.toNat) ∧
      pool.arena + pool.capacity.toNat * pool.slotSize.toNat ≤ 2 ^ 64 ∧
      (w.conns.filter TcpConnection.hasFixedSlot).Pairwise Apart ∧
      (∃ free, w.bufPool = some { pool with freeList := free } ∧ (free ++ w.held).Perm (indices pool.capacity) ∧
        (w.conns = [] → free.Perm (indices pool.capacity))) ∧
      ((∃ c, w.construct.conns = w.conns ++ [c] ∧ c.hasFixedSlot = false) ↔ w.held.length = pool.capacity.toNat) := by
  subst made
  have built := make_built block enabled
  obtain ⟨free, accounted⟩ := run_accounted built enabled reach
  refine ⟨accounted.held_nodup, fun c live slot => ?_, built.arena, accounted.apart built, ?_,
    accounted.exhausted enabled⟩
  · have index := accounted.held_index live slot
    obtain ⟨place, size⟩ := accounted.placed c live slot
    rw [place, size]
    exact ⟨(mem_indices.mp index).1, (mem_indices.mp index).2, (built.slotPtr index).1, rfl, (built.slotPtr index).2⟩
  · refine ⟨free, accounted.kept, accounted.slots, fun nobody => ?_⟩
    simpa [World.held, nobody] using accounted.slots

/-- An allocator with one large block at a low address. -/
def lowBlock (total : Nat) : Option Nat := if total ≤ 2 ^ 32 then some 4096 else none

/-- Two slots and three connections, one of which goes. -/
def smallPool : RegisteredBufferPool := .make 2 64 lowBlock 0

def crowded : List Act := [.construct, .construct, .construct, .destroy 0, .construct]

theorem crowded_exclusive :
    (after step (start smallPool) crowded).held = [1, 0] ∧ (after step (start smallPool) crowded).held.Nodup := by
  have reach : Run step (start smallPool) crowded (after step (start smallPool) crowded) := run_eq_some rfl
  have block : ∀ total p, lowBlock total = some p → p + total ≤ 2 ^ 64 := by
    intro total p given
    obtain ⟨small, same⟩ := Option.ite_none_right_eq_some.mp given
    cases Option.some.inj same
    omega
  exact ⟨rfl, (slots_exclusive block rfl rfl reach).1⟩

end SlotOwners

end CoroNet
