import CoroNet.Connection.Descriptors

namespace CoroNet.TcpConnection.Descriptors

open Function Transition

variable {w w' : World} {a : Act} {acts : List Act}

/-- The connection has been made and not been destroyed. -/
def Alive (w : World) (k : Nat) : Prop := k < w.conns.length ∧ k ∉ w.closed

/-- A connection has its descriptor to itself for life, and lives as long as
some frame has a pointer to it. The wheel knows of every connection that was
destroyed. -/
structure Owned (w : World) : Prop where
  open_ : ∀ k conn, w.conns[k]? = some conn → k ∉ w.closed → w.table conn.fd = some (.conn k)
  owner : ∀ fd k, w.table fd = some (.conn k) → k ∉ w.closed ∧ ∃ conn, w.conns[k]? = some conn ∧ conn.fd = fd
  pointed : ∀ p ∈ w.pointers, Alive w p.2
  once : w.closed.Nodup
  made : ∀ k ∈ w.closed, k < w.conns.length
  entries : ∀ wheel, w.wheel = some wheel → ∀ k ∈ wheel.wconn, k < w.conns.length
  gone : ∀ wheel, w.wheel = some wheel → ∀ k ∈ w.closed, k ∈ wheel.closed

/-- An operation was prepared with the descriptor of its connection, by a
coroutine that has a pointer to it. -/
def Prepared (w : World) : Prop :=
  ∀ op ∈ w.ops, (op.coro, op.conn) ∈ w.pointers ∧
    ∃ conn, w.conns[op.conn]? = some conn ∧ op.awaiter = op.method.awaiter conn.fd

/-- The members of the world but for its operations. -/
theorem Owned.congr (owned : Owned w) (table : w'.table = w.table) (wheel : w'.wheel = w.wheel)
    (conns : w'.conns = w.conns) (closed : w'.closed = w.closed) (pointers : ∀ p ∈ w'.pointers, Alive w p.2) :
    Owned w' := by
  refine ⟨?_, ?_, ?_, closed ▸ owned.once, ?_, ?_, ?_⟩
  · rw [table, conns, closed]
    exact owned.open_
  · rw [table, conns, closed]
    exact owned.owner
  · unfold Alive
    rw [conns, closed]
    exact pointers
  · rw [conns, closed]
    exact owned.made
  · rw [wheel, conns]
    exact owned.entries
  · rw [wheel, closed]
    exact owned.gone

/-- A change of the table that concerns no connection. -/
theorem Owned.update (owned : Owned w) {fd : Int} {who : Option Owner} (before : ∀ k, w.table fd ≠ some (.conn k))
    (after : ∀ k, who ≠ some (.conn k)) : Owned { w with table := update w.table fd who } := by
  refine ⟨fun k conn here alive => ?_, fun fd' k here => ?_, owned.pointed, owned.once, owned.made, owned.entries,
    owned.gone⟩
  · have own := owned.open_ k conn here alive
    have other : conn.fd ≠ fd := fun same => before k (same ▸ own)
    simpa only [update_of_ne other] using own
  · by_cases same : fd' = fd
    · subst same
      exact absurd ((update_self ..).symm.trans here) (after k)
    · exact owned.owner fd' k ((update_of_ne same ..).symm.trans here)

theorem mem_dead {k : Nat} : k ∈ w.dead ↔ Alive w k ∧ ∀ p ∈ w.pointers, p.2 ≠ k := by
  simp only [World.dead, Alive, List.mem_filter, List.mem_range, decide_eq_true_eq]
  exact and_assoc.symm

/-- The descriptors the destructors close. -/
theorem reap_table (fd : Int) : (w.reap.table fd = none ∧ ∃ k ∈ w.dead, ∃ conn, w.conns[k]? = some conn ∧ conn.fd = fd) ∨
    (w.reap.table fd = w.table fd ∧ ∀ k ∈ w.dead, ∀ conn, w.conns[k]? = some conn → conn.fd ≠ fd) := by
  by_cases hit : (w.dead.any fun k => w.conns[k]?.any fun conn => conn.fd = fd) = true
  · refine Or.inl ⟨if_pos hit, ?_⟩
    obtain ⟨k, member, same⟩ := List.any_eq_true.mp hit
    obtain ⟨conn, here, eq⟩ := (Option.any_eq_true ..).mp same
    exact ⟨k, member, conn, here, of_decide_eq_true eq⟩
  · refine Or.inr ⟨if_neg hit, fun k member conn here same => hit ?_⟩
    refine List.any_eq_true.mpr ⟨k, member, (Option.any_eq_true ..).mpr ⟨conn, here, ?_⟩⟩
    exact decide_eq_true same

theorem reap_alive {k : Nat} : Alive w.reap k ↔ Alive w k ∧ k ∉ w.dead := by
  simp only [Alive, World.reap, List.mem_append, not_or]
  exact and_assoc.symm

/-- The destructors close what belongs to their connections, and leave
everything else open. -/
theorem Owned.reap (owned : Owned w) : Owned w.reap := by
  refine ⟨fun k conn here alive => ?_, fun fd k here => ?_, fun p member => ?_, ?_, fun k member => ?_, ?_, ?_⟩
  · have spared := not_or.mp (mt List.mem_append.mpr alive)
    have own := owned.open_ k conn here spared.1
    rcases reap_table conn.fd with ⟨_, j, member, other, there, same⟩ | ⟨kept, _⟩
    · have owner := owned.open_ j other there (mem_dead.mp member).1.2
      rw [same, own] at owner
      cases owner
      exact absurd member spared.2
    · rw [kept, own]
  · rcases reap_table fd with ⟨shut, _⟩ | ⟨kept, others⟩
    · exact absurd (shut.symm.trans here) (by simp)
    · rw [kept] at here
      obtain ⟨alive, conn, made, same⟩ := owned.owner fd k here
      refine ⟨fun dies => ?_, conn, made, same⟩
      rcases List.mem_append.mp dies with before | now
      · exact alive before
      · exact others k now conn made same
  · have alive := owned.pointed p member
    exact reap_alive.mpr ⟨alive, fun dies => (mem_dead.mp dies).2 p member rfl⟩
  · refine List.nodup_append.mpr ⟨owned.once, List.Nodup.filter _ List.nodup_range, ?_⟩
    intro k before j now same
    subst same
    exact (mem_dead.mp now).1.2 before
  · rcases List.mem_append.mp member with before | now
    · exact owned.made k before
    · exact (mem_dead.mp now).1.1
  · intro wheel here
    obtain ⟨old, was, rfl⟩ := Option.map_eq_some_iff.mp here
    exact owned.entries old was
  · intro wheel here k member
    obtain ⟨old, was, rfl⟩ := Option.map_eq_some_iff.mp here
    rcases List.mem_append.mp member with before | now
    · exact List.mem_append_left _ (owned.gone old was k before)
    · exact List.mem_append_right _ now

/-- What an insertion into the wheel leaves alone. -/
theorem insert_frame {wheel wheel' : IdleConnectionWheel.World} {e : Nat} (done : wheel.insert e = some wheel') :
    wheel'.wconn = wheel.wconn ∧ wheel'.closed = wheel.closed := by
  obtain ⟨buckets, _, same⟩ := Option.bind_eq_some_iff.mp done
  cases Option.some.inj same
  exact ⟨rfl, rfl⟩

theorem registerConn_frame {wheel wheel' : IdleConnectionWheel.World} {k : Nat}
    (done : IdleConnectionWheel.step wheel (.registerConn k) = some wheel') :
    wheel'.wconn = wheel.wconn ++ [k] ∧ wheel'.closed = wheel.closed := by
  obtain ⟨next, acted, rfl⟩ := Option.map_eq_some_iff.mp done
  obtain ⟨_, made⟩ := Option.ite_none_left_eq_some.mp acted
  exact insert_frame made

/-- What a registration adds to the wheel, where there is one. -/
theorem registered_cases {k : Nat} {wheel : IdleConnectionWheel.World} (done : w.registerConn k = some (some wheel)) :
    ∃ old, w.wheel = some old ∧ wheel.wconn = old.wconn ++ [k] ∧ wheel.closed = old.closed := by
  unfold World.registerConn at done
  split at done
  next => cases done
  next old here =>
    obtain ⟨_, stepped, same⟩ := Option.map_eq_some_iff.mp done
    cases same
    exact ⟨old, here, registerConn_frame stepped⟩

theorem recv_frame {wheel wheel' : IdleConnectionWheel.World} {e : Nat} {n : Int}
    (done : IdleConnectionWheel.step wheel (.recv e n) = some wheel') :
    wheel'.wconn = wheel.wconn ∧ wheel'.closed = wheel.closed := by
  obtain ⟨next, acted, rfl⟩ := Option.map_eq_some_iff.mp done
  simp only [IdleConnectionWheel.World.act] at acted
  split at acted
  · cases acted
  · split at acted
    · have frame : next.wconn = wheel.wconn ∧ next.closed = wheel.closed := insert_frame acted
      exact frame
    · cases Option.some.inj acted
      exact ⟨rfl, rfl⟩

/-- A change of the wheel that keeps its connections. -/
theorem Owned.turn (owned : Owned w) {wheel wheel' : IdleConnectionWheel.World} (here : w.wheel = some wheel)
    (frame : wheel'.wconn = wheel.wconn ∧ wheel'.closed = wheel.closed) : Owned { w with wheel := some wheel' } := by
  refine ⟨owned.open_, owned.owner, owned.pointed, owned.once, owned.made, fun wheel same => ?_, fun wheel same => ?_⟩
  · cases same
    rw [frame.1]
    exact owned.entries _ here
  · cases same
    rw [frame.2]
    exact owned.gone _ here

/-- Another frame gets a pointer to a connection that is alive. -/
theorem Owned.point (owned : Owned w) {c k coros : Nat} (alive : Alive w k) :
    Owned { w with pointers := w.pointers ++ [(c, k)], coros := coros } := by
  refine owned.congr rfl rfl rfl rfl fun p member => ?_
  rcases List.mem_append.mp member with old | new
  · exact owned.pointed p old
  · rw [List.mem_singleton.mp new]
    exact alive

/-- A new connection with a descriptor nobody else uses. -/
theorem Owned.accept {fd : Int} (owned : Owned w) (mine : w.table fd = some .accepted) (made : w.accept fd = some w') :
    Owned w' := by
  obtain ⟨wheel, registered, rfl⟩ := Option.map_eq_some_iff.mp made
  have fresh : w.conns.length ∉ w.closed := fun member => Nat.lt_irrefl _ (owned.made _ member)
  have more (conn : Connection) {k : Nat} (old : k < w.conns.length) : k < (w.conns ++ [conn]).length := by
    rw [List.length_append]
    exact Nat.lt_add_right _ old
  have last (conn : Connection) : w.conns.length < (w.conns ++ [conn]).length := by
    rw [List.length_append]
    exact Nat.lt_succ_self _
  refine ⟨fun k conn here alive => ?_, fun fd' k here => ?_, fun p member => ?_, owned.once, fun k member => ?_, ?_, ?_⟩
  · rcases Nat.lt_or_ge k w.conns.length with old | new
    · have here : w.conns[k]? = some conn := (List.getElem?_append_left old).symm.trans here
      have own := owned.open_ k conn here alive
      have other : conn.fd ≠ fd := fun same => by rw [same, mine] at own; cases own
      simpa only [update_of_ne other] using own
    · have last : k = w.conns.length := by
        have bound := (List.getElem?_eq_some_iff.mp here).1
        rw [List.length_append, List.length_singleton] at bound
        omega
      subst last
      simp only [List.getElem?_concat_length, Option.some.injEq] at here
      subst here
      exact update_self ..
  · by_cases same : fd' = fd
    · subst same
      cases (update_self ..).symm.trans here
      exact ⟨fresh, _, List.getElem?_concat_length, rfl⟩
    · obtain ⟨alive, conn, known, eq⟩ := owned.owner fd' k ((update_of_ne same ..).symm.trans here)
      exact ⟨alive, conn, (List.getElem?_append_left (List.getElem?_eq_some_iff.mp known).1).trans known, eq⟩
  · rcases List.mem_append.mp member with old | new
    · exact (owned.pointed p old).imp_left (more _)
    · rw [List.mem_singleton.mp new]
      exact ⟨last _, fresh⟩
  · exact more _ (owned.made k member)
  · intro wheel' same k member
    subst same
    obtain ⟨old, here, wconn, _⟩ := registered_cases registered
    rw [wconn] at member
    rcases List.mem_append.mp member with before | new
    · exact more _ (owned.entries old here k before)
    · rw [List.mem_singleton.mp new]
      exact last _
  · intro wheel' same
    subst same
    obtain ⟨old, here, _, closed⟩ := registered_cases registered
    rw [closed]
    exact owned.gone old here

theorem prepare_cases {c k : Nat} {m : Method} (made : w.prepare c k m = some w') :
    ∃ conn, w.conns[k]? = some conn ∧
      w' = { w with ops := w.ops ++ [{ coro := c, conn := k, method := m, awaiter := m.awaiter conn.fd }] } := by
  unfold World.prepare at made
  split at made
  next conn here =>
    obtain ⟨_, same⟩ := Option.ite_none_left_eq_some.mp made
    exact ⟨conn, here, (Option.some.inj same).symm⟩
  next => cases made

/-- The descriptor of the connection is the one in the awaiter and in its SQE. -/
theorem Method.awaiter_fd (m : Method) (fd : Int) : (m.awaiter fd).fd = some fd ∧ (m.awaiter fd).prep.fd = some fd := by
  cases m <;> exact ⟨rfl, rfl⟩

theorem Prepared.prepare {c k : Nat} {m : Method} (prepared : Prepared w) (has : (c, k) ∈ w.pointers)
    (made : w.prepare c k m = some w') : Prepared w' := by
  obtain ⟨conn, here, rfl⟩ := prepare_cases made
  intro op member
  rcases List.mem_append.mp member with old | new
  · exact prepared op old
  · rw [List.mem_singleton.mp new]
    exact ⟨has, conn, here, rfl⟩

/-- More pointers. -/
theorem Prepared.point {c k coros : Nat} (prepared : Prepared w) :
    Prepared { w with pointers := w.pointers ++ [(c, k)], coros := coros } := by
  intro op member
  obtain ⟨has, made⟩ := prepared op member
  exact ⟨List.mem_append_left _ has, made⟩

/-- Fewer pointers, as long as every coroutine that awaits keeps its own. -/
theorem Prepared.keep {pointers : List (Nat × Nat)} (prepared : Prepared w)
    (keeps : ∀ op ∈ w.ops, (op.coro, op.conn) ∈ w.pointers → (op.coro, op.conn) ∈ pointers) :
    Prepared { w with pointers := pointers } := by
  intro op member
  obtain ⟨has, made⟩ := prepared op member
  exact ⟨keeps op member has, made⟩

theorem Prepared.eraseIdx {j : Nat} (prepared : Prepared w) : Prepared { w with ops := w.ops.eraseIdx j } :=
  fun op member => prepared op (List.mem_of_mem_eraseIdx member)

/-- What holds in every state. -/
def Sound (w : World) : Prop := Owned w ∧ Prepared w

/-- The shutdown of an evicted connection that is alive. -/
theorem Sound.evict {k : Nat} (sound : Sound w) (alive : Alive w k) : Sound (w.evict k) ∧
    (w.evict k).conns = w.conns ∧ (w.evict k).closed = w.closed := by
  have owned : Owned { w with pointers := w.pointers ++ [(w.coros, k)], coros := w.coros + 1 } := sound.1.point alive
  have prepared : Prepared { w with pointers := w.pointers ++ [(w.coros, k)], coros := w.coros + 1 } := sound.2.point
  unfold World.evict
  dsimp only
  cases made : World.prepare { w with pointers := w.pointers ++ [(w.coros, k)], coros := w.coros + 1 } w.coros k .shutdown with
  | none => exact ⟨⟨owned, prepared⟩, rfl, rfl⟩
  | some w' =>
    have both := prepared.prepare (List.mem_append_right _ (List.mem_singleton_self _)) made
    obtain ⟨conn, _, rfl⟩ := prepare_cases made
    exact ⟨⟨owned.congr rfl rfl rfl rfl owned.pointed, both⟩, rfl, rfl⟩

theorem Sound.evictAll (evicted : List Nat) (sound : Sound w) (alive : ∀ k ∈ evicted, Alive w k) :
    Sound (evicted.foldl World.evict w) := by
  induction evicted generalizing w with
  | nil => exact sound
  | cons k rest ih =>
    obtain ⟨next, conns, closed⟩ := sound.evict (alive k List.mem_cons_self)
    refine ih next fun j member => ?_
    unfold Alive
    rw [conns, closed]
    exact alive j (List.mem_cons_of_mem _ member)

/-- The tick spawns shutdowns of connections that are alive: the weak pointer
of an entry finds no other. -/
theorem Sound.tick (sound : Sound w) : Sound w.tick := by
  unfold World.tick
  split
  · exact sound
  next wheel here =>
    have turned : Sound { w with wheel := some wheel.tick } := ⟨sound.1.turn here ⟨rfl, rfl⟩, sound.2⟩
    refine turned.evictAll _ fun k member => ?_
    obtain ⟨e, _, locked⟩ := List.mem_filterMap.mp member
    obtain ⟨known, exists_⟩ := Option.filter_eq_some_iff.mp locked
    refine ⟨sound.1.entries wheel here k (List.mem_of_getElem? known), fun gone => ?_⟩
    simp [sound.1.gone wheel here k gone] at exists_

theorem Sound.renew {op : Op} {res : Int} (sound : Sound w) : Sound (w.renew op res) := by
  unfold World.renew
  split
  next wheel e here _ =>
    split
    · cases done : IdleConnectionWheel.step wheel (.recv e res) with
      | none => exact ⟨sound.1.turn here ⟨rfl, rfl⟩, sound.2⟩
      | some wheel' => exact ⟨sound.1.turn here (recv_frame done), sound.2⟩
    · exact sound
  next => exact sound

theorem not_awaits {c : Nat} (idle : w.awaits c = false) : ∀ op ∈ w.ops, op.coro ≠ c := by
  intro op member same
  have busy : w.awaits c = true := List.any_eq_true.mpr ⟨op, member, decide_eq_true same⟩
  rw [idle] at busy
  cases busy

/-- Fewer pointers, and the destructors this leads to. -/
theorem Sound.release {pointers : List (Nat × Nat)} (sound : Sound w) (fewer : ∀ p ∈ pointers, p ∈ w.pointers)
    (keeps : ∀ op ∈ w.ops, (op.coro, op.conn) ∈ w.pointers → (op.coro, op.conn) ∈ pointers) :
    Sound (World.reap { w with pointers := pointers }) := by
  have owned : Owned { w with pointers := pointers } :=
    sound.1.congr rfl rfl rfl rfl fun p member => sound.1.pointed p (fewer p member)
  exact ⟨owned.reap, sound.2.keep keeps⟩

theorem Sound.step (sound : Sound w) (move : step w a = some w') : Sound w' := by
  obtain ⟨owned, prepared⟩ := sound
  cases a with
  | kernelAccept fd =>
    obtain ⟨⟨_, free⟩, same⟩ := Option.ite_none_right_eq_some.mp move
    cases Option.some.inj same
    exact ⟨owned.update (by simp [free]) (by simp), prepared⟩
  | accept fd =>
    obtain ⟨mine, made⟩ := Option.ite_none_right_eq_some.mp move
    refine ⟨owned.accept mine made, ?_⟩
    obtain ⟨wheel, _, rfl⟩ := Option.map_eq_some_iff.mp made
    intro op member
    obtain ⟨has, conn, here, awaiter⟩ := prepared op member
    refine ⟨List.mem_append_left _ has, conn, ?_, awaiter⟩
    exact (List.getElem?_append_left (List.getElem?_eq_some_iff.mp here).1).trans here
  | prepare c k m =>
    obtain ⟨⟨has, _⟩, made⟩ := Option.ite_none_right_eq_some.mp move
    refine ⟨?_, prepared.prepare has made⟩
    obtain ⟨conn, _, rfl⟩ := prepare_cases made
    exact owned.congr rfl rfl rfl rfl owned.pointed
  | complete j res =>
    simp only [step] at move
    split at move
    next op here =>
      cases Option.some.inj move
      have fewer : Owned { w with ops := w.ops.eraseIdx j } := owned.congr rfl rfl rfl rfl owned.pointed
      exact Sound.renew ⟨fewer, prepared.eraseIdx⟩
    next => cases move
  | share c k d =>
    obtain ⟨⟨has, _⟩, same⟩ := Option.ite_none_right_eq_some.mp move
    cases Option.some.inj same
    exact ⟨owned.point (owned.pointed _ has), prepared.point⟩
  | drop c k =>
    obtain ⟨⟨_, idle⟩, same⟩ := Option.ite_none_right_eq_some.mp move
    cases Option.some.inj same
    refine Sound.release ⟨owned, prepared⟩ (fun p => List.mem_of_mem_erase) fun op member has => ?_
    have other : (op.coro, op.conn) ≠ (c, k) := fun same => not_awaits idle op member (congrArg Prod.fst same)
    exact (List.mem_erase_of_ne other).mpr has
  | finish c =>
    obtain ⟨idle, same⟩ := Option.ite_none_right_eq_some.mp move
    cases Option.some.inj same
    refine Sound.release ⟨owned, prepared⟩ (fun p member => (List.mem_filter.mp member).1) fun op member has => ?_
    exact List.mem_filter.mpr ⟨has, decide_eq_true (not_awaits idle op member)⟩
  | tick =>
    cases Option.some.inj move
    exact Sound.tick ⟨owned, prepared⟩
  | openOther fd =>
    obtain ⟨⟨_, free⟩, same⟩ := Option.ite_none_right_eq_some.mp move
    cases Option.some.inj same
    exact ⟨owned.update (by simp [free]) (by simp), prepared⟩
  | closeOther fd =>
    obtain ⟨foreign, same⟩ := Option.ite_none_right_eq_some.mp move
    cases Option.some.inj same
    exact ⟨owned.update (by simp [foreign]) (by simp), prepared⟩

theorem start_sound (others : Int → Bool) (idle : Int) : Sound (start others idle) := by
  have free : ∀ fd k, (start others idle).table fd ≠ some (.conn k) := by
    intro fd k
    simp only [start]
    split <;> simp
  refine ⟨⟨fun k conn here => by simp [start] at here, fun fd k here => absurd here (free fd k), ?_, List.nodup_nil,
    ?_, ?_, ?_⟩, ?_⟩
  · intro p member
    cases member
  · intro k member
    cases member
  · intro wheel here k member
    obtain ⟨_, same⟩ := Option.ite_none_right_eq_some.mp here
    cases Option.some.inj same
    cases member
  · intro wheel _ k member
    cases member
  · intro op member
    cases member

theorem run_sound {others : Int → Bool} {idle : Int} (reach : Run step (start others idle) acts w) : Sound w :=
  reach.invariant (P := Sound) (start_sound others idle) fun sound move => sound.step move

/-- A prepared operation whose completion has not been consumed carries, in its
awaiter and in the SQE of this, a descriptor that is open and belongs to the
connection it was prepared for, which is alive; a connection closes its
descriptor at most once, and only when no coroutine has a pointer to it any more. -/
theorem operations_own_descriptors {others : Int → Bool} {idle : Int} (reach : Run step (start others idle) acts w) :
    (∀ op ∈ w.ops, ∃ conn, w.conns[op.conn]? = some conn ∧
      op.awaiter = op.method.awaiter conn.fd ∧ op.awaiter.fd = some conn.fd ∧ op.awaiter.prep.fd = some conn.fd ∧
      op.conn ∉ w.closed ∧ w.table conn.fd = some (.conn op.conn) ∧ (op.coro, op.conn) ∈ w.pointers) ∧
    w.closed.Nodup ∧ ∀ k ∈ w.closed, ∀ c, (c, k) ∉ w.pointers := by
  obtain ⟨owned, prepared⟩ := run_sound reach
  refine ⟨fun op member => ?_, owned.once, fun k gone c has => (owned.pointed _ has).2 gone⟩
  obtain ⟨has, conn, here, awaiter⟩ := prepared op member
  have alive := (owned.pointed _ has).2
  obtain ⟨names, carries⟩ := op.method.awaiter_fd conn.fd
  exact ⟨conn, here, awaiter, awaiter ▸ names, awaiter ▸ carries, alive, owned.open_ _ conn here alive, has⟩

/-- A connection is evicted while its handler waits, both release it, and the
kernel gives its number to the next one. -/
def recycled : List Act :=
  [.kernelAccept 7, .accept 7, .prepare 0 0 (.recv 1024), .tick, .complete 1 0, .finish 1, .complete 0 0, .finish 0,
    .kernelAccept 7, .accept 7, .prepare 2 1 (.recv 1024)]

theorem recycled_descriptor_owned :
    let w := after step (start (fun fd => decide (fd < 3)) 1) recycled
    w.closed = [0] ∧ w.ops.length = 1 ∧ ∀ op ∈ w.ops, ∃ conn, w.conns[op.conn]? = some conn ∧
      op.awaiter = op.method.awaiter conn.fd ∧ op.awaiter.fd = some conn.fd ∧ op.awaiter.prep.fd = some conn.fd ∧
      op.conn ∉ w.closed ∧ w.table conn.fd = some (.conn op.conn) ∧ (op.coro, op.conn) ∈ w.pointers := by
  have reach : Run step (start (fun fd => decide (fd < 3)) 1) recycled
      (after step (start (fun fd => decide (fd < 3)) 1) recycled) := run_after (by decide)
  exact ⟨by decide, by decide, (operations_own_descriptors reach).1⟩

end CoroNet.TcpConnection.Descriptors
