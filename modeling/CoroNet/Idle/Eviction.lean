import CoroNet.Idle.Wheel

namespace CoroNet.IdleConnectionWheel

open Function Transition

variable {w w' : World} {N : Nat} {recent : List Bucket} {e : Nat}

/-- What the buckets, the latest first, say about the ages of the entries: an
entry lies in the bucket of its latest event as long as the wheel has that
bucket, and in no later one. -/
structure Aged (w : World) (N : Nat) (recent : List Bucket) : Prop where
  ring : w.buckets.Recent recent
  full : recent.length = w.buckets.capacity
  count : recent.length = N
  positive : 0 < N
  distinct : ∀ bucket ∈ recent, bucket.Nodup
  past : ∀ e < w.wconn.length, w.touched e ≤ w.ticks
  member : ∀ j bucket e, recent[j]? = some bucket → e ∈ bucket → e < w.wconn.length ∧ w.ticks ≤ w.touched e + j
  present : ∀ e < w.wconn.length, w.ticks < w.touched e + N →
    ∃ bucket, recent[w.ticks - w.touched e]? = some bucket ∧ e ∈ bucket

theorem Aged.held_iff (aged : Aged w N recent) :
    w.held e = true ↔ e < w.wconn.length ∧ w.ticks < w.touched e + N := by
  have count := aged.count
  simp only [World.held, List.any_eq_true, List.contains_iff_mem, aged.ring.mem_iff aged.full]
  constructor
  · rintro ⟨bucket, member, inside⟩
    obtain ⟨j, within, here⟩ := List.getElem_of_mem member
    have known := aged.member j bucket e (List.getElem?_eq_some_iff.mpr ⟨within, here⟩) inside
    exact ⟨known.1, by omega⟩
  · rintro ⟨known, young⟩
    obtain ⟨bucket, here, inside⟩ := aged.present e known young
    exact ⟨bucket, List.mem_of_getElem? here, inside⟩

/-- A new bucket makes every entry one tick older. -/
theorem Aged.tick (aged : Aged w N recent) : Aged w.tick N (([] :: recent).take N) := by
  have count := aged.count
  have full := aged.full
  have positive := aged.positive
  have ring := aged.ring.pushBack ([] : Bucket)
  rw [← full, count] at ring
  have later : ∀ j, j + 1 < N → (([] :: recent).take N)[j + 1]? = recent[j]? := by
    intro j inside
    rw [List.getElem?_take_of_lt inside, List.getElem?_cons_succ]
  refine ⟨ring, ?_, ?_, positive, ?_, ?_, ?_, ?_⟩
  · simp only [World.tick, CircularBuffer.pushBack_capacity, List.length_take, List.length_cons]
    omega
  · simp only [List.length_take, List.length_cons]
    omega
  · intro bucket member
    rcases List.mem_cons.mp (List.mem_of_mem_take member) with rfl | old
    · exact List.nodup_nil
    · exact aged.distinct bucket old
  · intro e known
    exact Nat.le_succ_of_le (aged.past e known)
  · intro j bucket e here inside
    cases j with
    | zero =>
      rw [List.getElem?_take_of_lt positive] at here
      cases Option.some.inj here
      cases inside
    | succ j =>
      have bound := (List.getElem?_eq_some_iff.mp here).1
      rw [List.length_take, List.length_cons] at bound
      rw [later j (by omega)] at here
      have known := aged.member j bucket e here inside
      refine ⟨known.1, ?_⟩
      simp only [World.tick]
      omega
  · intro e known young
    simp only [World.tick] at known young ⊢
    have past := aged.past e known
    obtain ⟨bucket, here, inside⟩ := aged.present e known (by omega)
    refine ⟨bucket, ?_, inside⟩
    rw [Nat.sub_add_comm past, later _ (by omega)]
    exact here

/-- An insertion puts an entry, known or just made, into the latest bucket,
where the event it is for belongs. -/
theorem Aged.insert (aged : Aged w N recent) {wconn : List Nat} (grown : w.wconn.length ≤ wconn.length)
    (here : e < wconn.length) (made : ∀ e' < wconn.length, e' = e ∨ e' < w.wconn.length) :
    ∃ buckets recent', World.insert { w with wconn := wconn } e = some { w with wconn := wconn, buckets := buckets } ∧
      Aged { w with wconn := wconn, buckets := buckets, touched := update w.touched e w.ticks } N recent' := by
  have count := aged.count
  have full := aged.full
  have positive := aged.positive
  cases recent with
  | nil =>
    rw [List.length_nil] at count
    omega
  | cons newest rest =>
    obtain ⟨buckets, done, capacity, ring⟩ := aged.ring.modifyBack fun bucket => bucket.insert e
    have subset : ∀ e' : Nat, e' ∈ newest → e' ∈ newest.insert e := fun e' inside => List.mem_insert_of_mem inside
    refine ⟨buckets, newest.insert e :: rest, ?_, ring, ?_, count, positive, ?_, ?_, ?_, ?_⟩
    · simp [World.insert, done]
    · exact full.trans capacity.symm
    · intro bucket member
      rcases List.mem_cons.mp member with rfl | old
      · exact (aged.distinct newest (List.mem_cons_self ..)).insert
      · exact aged.distinct bucket (List.mem_cons_of_mem _ old)
    · intro e' known
      by_cases same : e' = e
      · simp [same]
      · simpa [update_of_ne same] using aged.past e' ((made e' known).resolve_left same)
    · intro j bucket e' at_j inside
      by_cases same : e' = e
      · subst same
        simp only [update_self]
        exact ⟨here, by omega⟩
      simp only [update_of_ne same]
      cases j with
      | zero =>
        cases Option.some.inj at_j
        have old := aged.member 0 newest e' rfl ((List.mem_insert_iff.mp inside).resolve_left same)
        exact ⟨by omega, old.2⟩
      | succ j =>
        have old := aged.member (j + 1) bucket e' at_j inside
        exact ⟨by omega, old.2⟩
    · intro e' known young
      by_cases same : e' = e
      · subst same
        simp only [update_self, Nat.sub_self]
        exact ⟨_, rfl, List.mem_insert_self ..⟩
      simp only [update_of_ne same] at young ⊢
      obtain ⟨bucket, old, inside⟩ := aged.present e' ((made e' known).resolve_left same) young
      cases age : w.ticks - w.touched e' with
      | zero =>
        rw [age] at old
        cases Option.some.inj old
        exact ⟨_, rfl, subset e' inside⟩
      | succ j =>
        rw [age] at old
        exact ⟨bucket, old, inside⟩

/-- A tick destroys the entries whose latest event was `N` ticks ago,
counting itself. -/
theorem Aged.mem_evicted (aged : Aged w N recent) :
    e ∈ w.evicted ↔ e < w.wconn.length ∧ w.touched e + N = w.ticks + 1 := by
  have count := aged.count
  have positive := aged.positive
  have next : World.held { w with buckets := w.buckets.pushBack [] } e = w.tick.held e := rfl
  have held : w.tick.held e = true ↔ e < w.wconn.length ∧ w.ticks + 1 < w.touched e + N := aged.tick.held_iff
  rw [World.evicted, List.mem_filter, aged.ring.oldest aged.full, ← aged.full, count, next, Bool.not_eq_true',
    ← Bool.not_eq_true, held]
  constructor
  · rintro ⟨inside, free⟩
    cases oldest : recent[N - 1]? with
    | none =>
      rw [oldest] at inside
      cases inside
    | some bucket =>
      rw [oldest] at inside
      have known := aged.member (N - 1) bucket e oldest inside
      have past := aged.past e known.1
      refine ⟨known.1, ?_⟩
      have late : ¬ w.ticks + 1 < w.touched e + N := fun young => free ⟨known.1, young⟩
      omega
  · rintro ⟨known, due⟩
    have past := aged.past e known
    obtain ⟨bucket, here, inside⟩ := aged.present e known (by omega)
    rw [show w.ticks - w.touched e = N - 1 by omega] at here
    rw [here]
    exact ⟨inside, fun young => by omega⟩

theorem Aged.evicted_nodup (aged : Aged w N recent) : w.evicted.Nodup := by
  rw [World.evicted, aged.ring.oldest aged.full]
  apply List.Nodup.filter
  cases oldest : recent[w.buckets.capacity - 1]? with
  | none => exact List.nodup_nil
  | some bucket => exact aged.distinct bucket (List.mem_of_getElem? oldest)

/-- An entry is destroyed once, by the tick its age says. -/
structure Recorded (w : World) (N : Nat) : Prop where
  law : ∀ e k, (e, k) ∈ w.destroyed ↔ e < w.wconn.length ∧ k = w.touched e + N ∧ k ≤ w.ticks
  once : (w.destroyed.map Prod.fst).Nodup

theorem Recorded.insert (recorded : Recorded w N) {wconn : List Nat} {buckets : CircularBuffer Bucket}
    (positive : 0 < N) (grown : w.wconn.length ≤ wconn.length) (alive : e < w.wconn.length → w.ticks < w.touched e + N)
    (made : ∀ e' < wconn.length, e' = e ∨ e' < w.wconn.length) :
    Recorded { w with wconn := wconn, buckets := buckets, touched := update w.touched e w.ticks } N := by
  refine ⟨fun e' k => ?_, recorded.once⟩
  simp only [recorded.law]
  by_cases same : e' = e
  · subst same
    simp only [update_self]
    constructor
    · rintro ⟨known, rfl, early⟩
      exact absurd (alive known) (by omega)
    · rintro ⟨_, rfl, early⟩
      omega
  · simp only [update_of_ne same]
    constructor
    · rintro ⟨known, law⟩
      exact ⟨by omega, law⟩
    · rintro ⟨known, law⟩
      exact ⟨(made e' known).resolve_left same, law⟩

theorem Recorded.tick (recorded : Recorded w N) (aged : Aged w N recent) : Recorded w.tick N := by
  refine ⟨fun e k => ?_, ?_⟩
  · simp only [World.tick, List.mem_append, List.mem_map, Prod.mk.injEq, recorded.law, aged.mem_evicted]
    constructor
    · rintro (⟨known, law, early⟩ | ⟨_, ⟨known, due⟩, rfl, rfl⟩)
      · exact ⟨known, law, by omega⟩
      · exact ⟨known, due.symm, le_rfl⟩
    · rintro ⟨known, law, early⟩
      by_cases now : k = w.ticks + 1
      · exact Or.inr ⟨e, ⟨known, by omega⟩, rfl, now.symm⟩
      · exact Or.inl ⟨known, law, by omega⟩
  · simp only [World.tick, List.map_append, List.map_map]
    rw [show (Prod.fst ∘ fun e : Nat => (e, w.ticks + 1)) = id from rfl, List.map_id]
    refine recorded.once.append aged.evicted_nodup ?_
    intro e old now
    obtain ⟨⟨_, k⟩, member, rfl⟩ := List.mem_map.mp old
    have law := (recorded.law _ _).mp member
    have due := aged.mem_evicted.mp now
    simp only at law due
    omega

theorem fill_recent {b : CircularBuffer Bucket} {i k : Nat} (empty : b.Recent (List.replicate k []))
    (room : k + i ≤ b.capacity) :
    (fill i b).Recent (List.replicate (k + i) []) ∧ (fill i b).capacity = b.capacity := by
  induction i generalizing b k with
  | zero => exact ⟨empty, rfl⟩
  | succ i ih =>
    have pushed := empty.pushBack ([] : Bucket)
    rw [← List.replicate_succ, List.take_replicate, min_eq_right (by omega)] at pushed
    have filled := ih pushed (by rw [CircularBuffer.pushBack_capacity]; omega)
    rw [CircularBuffer.pushBack_capacity, Nat.add_right_comm] at filled
    exact filled

theorem bucketCount_pos (idle : Int) : 0 < bucketCount idle := by
  unfold bucketCount
  split <;> omega

theorem Aged.start {idle : Int} (fits : idle < 2 ^ 63) :
    Aged (start idle) (bucketCount idle) (List.replicate (bucketCount idle) []) := by
  have positive := bucketCount_pos idle
  have bound : bucketCount idle < 2 ^ 63 := by
    unfold bucketCount
    split <;> omega
  have empty : (CircularBuffer.make ([] : Bucket) (bucketCount idle)).Recent (List.replicate 0 []) :=
    CircularBuffer.make_recent positive bound
  obtain ⟨ring, capacity⟩ := fill_recent (i := bucketCount idle) empty (by rw [Nat.zero_add]; exact le_rfl)
  rw [Nat.zero_add] at ring
  refine ⟨ring, ?_, List.length_replicate .., positive, ?_, nofun, ?_, nofun⟩
  · rw [List.length_replicate]
    exact capacity.symm
  · intro bucket member
    rw [List.eq_of_mem_replicate member]
    exact List.nodup_nil
  · intro j bucket e here inside
    rw [List.eq_of_mem_replicate (List.mem_of_getElem? here)] at inside
    cases inside

/-- What holds of a wheel between its operations. -/
def Lawful (w : World) (N : Nat) : Prop := (∃ recent, Aged w N recent) ∧ Recorded w N

theorem Lawful.touch (lawful : Lawful w N) (wconn : List Nat) (grown : w.wconn.length ≤ wconn.length)
    (here : e < wconn.length) (made : ∀ e' < wconn.length, e' = e ∨ e' < w.wconn.length)
    (alive : e < w.wconn.length → w.held e = true) :
    ∃ buckets, World.insert { w with wconn := wconn } e = some { w with wconn := wconn, buckets := buckets } ∧
      Lawful { w with wconn := wconn, buckets := buckets, touched := update w.touched e w.ticks } N := by
  obtain ⟨⟨recent, aged⟩, recorded⟩ := lawful
  obtain ⟨buckets, recent', done, next⟩ := aged.insert grown here made
  refine ⟨buckets, done, ⟨recent', next⟩, ?_⟩
  exact recorded.insert aged.positive grown (fun known => (aged.held_iff.mp (alive known)).2) made

/-- What a step can be. -/
inductive Move (w : World) : Act → World → Prop
  | registerConn {c : Nat} {buckets : CircularBuffer Bucket} : c ∉ w.closed →
      Move w (.registerConn c)
        { w with wconn := w.wconn ++ [c], buckets := buckets, touched := update w.touched w.wconn.length w.ticks }
  | refresh {e c : Nat} {n : Int} {buckets : CircularBuffer Bucket} : w.lock e = some c → 0 < n → w.held e = true →
      Move w (.recv e n) { w with buckets := buckets, touched := update w.touched e w.ticks }
  | recv {e c : Nat} {n : Int} : w.lock e = some c → ¬ (0 < n ∧ w.held e = true) → Move w (.recv e n) w
  | close {c : Nat} : c ∉ w.closed → Move w (.close c) { w with closed := w.closed ++ [c] }
  | tick : Move w .tick w.tick

theorem lock_lt {c : Nat} (alive : w.lock e = some c) : e < w.wconn.length := by
  obtain ⟨here, _⟩ := Option.filter_eq_some_iff.mp alive
  exact (List.getElem?_eq_some_iff.mp here).1

theorem Lawful.step (lawful : Lawful w N) {a : Act} (move : step w a = some w') : Move w a w' ∧ Lawful w' N := by
  obtain ⟨next, moved, rfl⟩ := Option.map_eq_some_iff.mp move
  cases a with
  | registerConn c =>
    obtain ⟨open_c, made⟩ := Option.ite_none_left_eq_some.mp moved
    have longer : (w.wconn ++ [c]).length = w.wconn.length + 1 := List.length_append ..
    obtain ⟨buckets, done, after⟩ := lawful.touch (w.wconn ++ [c]) (by omega) (by omega)
      (fun e' known => by omega) fun known => absurd known (Nat.lt_irrefl _)
    cases Option.some.inj (done.symm.trans made)
    exact ⟨.registerConn open_c, after⟩
  | recv e n =>
    simp only [World.act] at moved
    simp only [World.latest]
    cases alive : w.lock e with
    | none => simp [alive] at moved
    | some c =>
      simp only [alive] at moved
      by_cases again : 0 < n ∧ w.held e = true
      · rw [if_pos again] at moved ⊢
        obtain ⟨buckets, done, after⟩ := lawful.touch w.wconn le_rfl (lock_lt alive) (fun _ known => Or.inr known)
          fun _ => again.2
        cases Option.some.inj (done.symm.trans moved)
        exact ⟨.refresh alive again.1 again.2, after⟩
      · rw [if_neg again] at moved ⊢
        cases Option.some.inj moved
        exact ⟨.recv alive again, lawful⟩
  | close c =>
    obtain ⟨open_c, closed⟩ := Option.ite_none_left_eq_some.mp moved
    cases Option.some.inj closed
    obtain ⟨⟨recent, aged⟩, recorded⟩ := lawful
    refine ⟨.close open_c, ⟨recent, ?_⟩, recorded.law, recorded.once⟩
    exact ⟨aged.ring, aged.full, aged.count, aged.positive, aged.distinct, aged.past, aged.member, aged.present⟩
  | tick =>
    cases Option.some.inj moved
    obtain ⟨⟨recent, aged⟩, recorded⟩ := lawful
    exact ⟨.tick, ⟨_, aged.tick⟩, recorded.tick aged⟩

theorem run_lawful {idle : Int} {acts : List Act} (fits : idle < 2 ^ 63) (reach : Run step (start idle) acts w) :
    Lawful w (bucketCount idle) := by
  have initial : Recorded (start idle) (bucketCount idle) := by
    refine ⟨fun e k => ⟨nofun, ?_⟩, List.nodup_nil⟩
    rintro ⟨known, _⟩
    cases known
  exact reach.invariant (P := fun w => Lawful w (bucketCount idle)) ⟨⟨_, Aged.start fits⟩, initial⟩
    fun lawful move => (lawful.step move).2

end CoroNet.IdleConnectionWheel
