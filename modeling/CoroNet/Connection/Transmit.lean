import CoroNet.Connection.Send

namespace CoroNet.TcpConnection

open Transition

variable {data : List UInt8} {size : Nat} {results : List Int} {t u : Transfer} {l : SendLoop} {n r : Int}
  {transcript front back : List (Request × Int)}

/-- The locals after results that were all positive: the three of them stay in
step, and the confirmed bytes are those before `p`. -/
structure Running (data : List UInt8) (l : SendLoop) (transcript : List (Request × Int)) : Prop where
  split : l.p + l.remaining = data.length
  total : l.total = l.p
  confirmed : wire data transcript = data.take l.p
  positive : ∀ e ∈ transcript, 0 < e.2
  count : transcript.length ≤ l.p

/-- Each request began where the bytes confirmed before it end, and asked for
all the rest as far as the field holds it. -/
def Contiguous (data : List UInt8) (transcript : List (Request × Int)) : Prop :=
  ∀ front q n back, transcript = front ++ (q, n) :: back →
    q = prepSend (wire data front).length (data.length - (wire data front).length)

/-- The three ways out of the loop. -/
inductive Exit (data : List UInt8) (transcript : List (Request × Int)) : Int → Prop
  | all {l : SendLoop} : Running data l transcript → l.remaining = 0 → Exit data transcript l.total
  | error {l : SendLoop} {front : List (Request × Int)} {n : Int} :
      Running data l front → 0 < l.remaining → n < 0 → transcript = front ++ [(send.request l, n)] →
      Exit data transcript n
  | zero {l : SendLoop} {front : List (Request × Int)} :
      Running data l front → 0 < l.remaining → transcript = front ++ [(send.request l, 0)] →
      Exit data transcript l.total

/-- What holds whenever the loop is suspended or has returned. -/
structure Sound (data : List UInt8) (t : Transfer) : Prop where
  contiguous : Contiguous data t.transcript
  running : ∀ l, t.place = .awaiting l → 0 < l.remaining ∧ Running data l t.transcript
  exit : ∀ r, t.place = .returned r → Exit data t.transcript r

theorem Running.wire_length (running : Running data l transcript) : (wire data transcript).length = l.p := by
  have split := running.split
  rw [running.confirmed, List.length_take]
  omega

theorem Running.request_eq (running : Running data l transcript) :
    send.request l = prepSend (wire data transcript).length (data.length - (wire data transcript).length) := by
  have split := running.split
  rw [running.wire_length, show data.length - l.p = l.remaining from by omega]
  rfl

theorem Running.whileRemaining (running : Running data l transcript) (contiguous : Contiguous data transcript) :
    Sound data { place := whileRemaining l, transcript := transcript } := by
  unfold TcpConnection.whileRemaining
  split
  next more => exact ⟨contiguous, fun _ eq => by cases eq; exact ⟨more, running⟩, fun _ eq => by cases eq⟩
  next done =>
    refine ⟨contiguous, (fun _ eq => by cases eq), fun _ eq => ?_⟩
    cases eq
    exact Exit.all running (by omega)

theorem wire_append (front back : List (Request × Int)) : wire data (front ++ back) = wire data front ++ wire data back :=
  List.flatMap_append

theorem wire_single (q : Request) (n : Int) : wire data [(q, n)] = (data.drop q.start).take n.toNat := by
  simp [wire]

/-- A positive result moves the three locals on by the same number. -/
theorem Running.advance (running : Running data l transcript) (fits : data.length < 2 ^ 63) (positive : 0 < n)
    (bound : n ≤ l.remaining) :
    Running data { total := l.total + n, p := l.p + n.toNat, remaining := SizeT.sub l.remaining (toSizeT n) }
      (transcript ++ [(send.request l, n)]) := by
  have split := running.split
  have total := running.total
  have count := running.count
  have small : toSizeT n = n.toNat := by
    unfold toSizeT
    omega
  have remaining : SizeT.sub l.remaining (toSizeT n) = l.remaining - n.toNat := by
    rw [small]
    exact SizeT.sub_of_le (by omega) (by omega)
  constructor
  · simp only [remaining]
    omega
  · simp only
    omega
  · rw [wire_append, wire_single, running.confirmed, List.take_add]
    rfl
  · intro e member
    rcases List.mem_append.mp member with before | last
    · exact running.positive e before
    · rw [List.mem_singleton.mp last]
      exact positive
  · rw [List.length_append, List.length_singleton]
    simp only
    omega

theorem Contiguous.snoc (contiguous : Contiguous data transcript) (running : Running data l transcript) :
    Contiguous data (transcript ++ [(send.request l, n)]) := by
  intro front q m back eq
  rcases List.append_eq_append_iff.mp eq with ⟨more, rfl, tail⟩ | ⟨more, rfl, tail⟩
  · cases more with
    | nil =>
      cases tail
      simpa only [List.append_nil] using running.request_eq
    | cons e more => simp at tail
  · cases more with
    | nil =>
      cases tail
      simpa only [List.append_nil] using running.request_eq
    | cons e more =>
      cases tail
      exact contiguous front q m more rfl

theorem Sound.resume (held : Sound data t) (fits : data.length < 2 ^ 63) (place : t.place = .awaiting l)
    (bound : n ≤ (send.request l).len) :
    Sound data { place := send.resume l n, transcript := t.transcript ++ [(send.request l, n)] } := by
  obtain ⟨more, running⟩ := held.running l place
  have contiguous := held.contiguous.snoc (n := n) running
  have within : n ≤ l.remaining := by
    have field : (send.request l).len = l.remaining % 2 ^ 32 := rfl
    omega
  simp only [send]
  split_ifs with negative zero
  · refine ⟨contiguous, (fun _ eq => by cases eq), fun _ eq => ?_⟩
    cases eq
    exact Exit.error running more negative rfl
  · subst zero
    refine ⟨contiguous, (fun _ eq => by cases eq), fun _ eq => ?_⟩
    cases eq
    exact Exit.zero running more rfl
  · exact (running.advance fits (by omega) within).whileRemaining contiguous

theorem step_cases (move : send.step t n = some u) :
    ∃ l, t.place = .awaiting l ∧
      u = { place := send.resume l n, transcript := t.transcript ++ [(send.request l, n)] } := by
  unfold Sender.step at move
  split at move
  next l place => exact ⟨l, place, (Option.some.inj move).symm⟩
  next => cases move

theorem call_sound : Sound data (send.start data.length) := by
  have running : Running data { remaining := data.length, p := 0, total := 0 } [] :=
    ⟨Nat.zero_add _, rfl, rfl, by simp, Nat.le_refl 0⟩
  exact running.whileRemaining fun front q n back eq => by simp at eq

theorem run_sound (fits : data.length < 2 ^ 63)
    (reach : RunWhile send.step Confirms (send.start data.length) results t) : Sound data t := by
  refine reach.invariant (P := Sound data) call_sound ?_
  intro t n u held confirms move
  obtain ⟨l, place, rfl⟩ := step_cases move
  exact held.resume fits place (confirms l place)

theorem run_transcript {cond : Transfer → Int → Prop} (reach : RunWhile send.step cond (send.start size) results t) :
    t.transcript.map Prod.snd = results := by
  induction reach with
  | start => rfl
  | next _ _ move ih =>
    obtain ⟨l, _, rfl⟩ := step_cases move
    simp [ih]

/-- What is promised of a call that writes `data`, after any results. -/
structure Exact (data : List UInt8) (results : List Int) (t : Transfer) : Prop where
  answered : t.transcript.map Prod.snd = results
  contiguous : ∀ front q n back, t.transcript = front ++ (q, n) :: back →
    q.start = (wire data front).length ∧ q.len = data.length - (wire data front).length
  pending : ∀ l, t.place = .awaiting l → (send.request l).start = (wire data t.transcript).length ∧
    (send.request l).len = data.length - (wire data t.transcript).length
  begins : wire data t.transcript <+: data
  finite : ∀ l, t.place = .awaiting l → (∀ n ∈ results, 0 < n) ∧ results.length < data.length
  complete : ∀ r, t.place = .returned r → (r = data.length ↔ wire data t.transcript = data)
  result : ∀ r, t.place = .returned r →
    (wire data t.transcript = data ∧ r = data.length ∧ ∀ n ∈ results, 0 < n) ∨
    (∃ before, results = before ++ [r] ∧ r < 0 ∧ ∀ n ∈ before, 0 < n) ∨
    (∃ before, results = before ++ [0] ∧ r = (wire data t.transcript).length ∧ ∀ n ∈ before, 0 < n)

theorem Running.results_positive (running : Running data l transcript) : ∀ n ∈ transcript.map Prod.snd, 0 < n := by
  intro n member
  obtain ⟨e, inside, rfl⟩ := List.mem_map.mp member
  exact running.positive e inside

theorem Running.wire_begins (running : Running data l transcript) : wire data transcript <+: data := by
  rw [running.confirmed]
  exact List.take_prefix l.p data

/-- A result that is not positive confirms nothing. -/
theorem wire_snoc_nonpos {q : Request} (nonpos : n ≤ 0) : wire data (front ++ [(q, n)]) = wire data front := by
  rw [wire_append, wire_single, Int.toNat_of_nonpos nonpos, List.take_zero, List.append_nil]

theorem Running.incomplete (running : Running data l transcript) (more : 0 < l.remaining) :
    wire data transcript ≠ data := by
  intro all
  have length := running.wire_length
  have split := running.split
  rw [all] at length
  omega

theorem Exit.complete (exit : Exit data transcript r) : r = data.length ↔ wire data transcript = data := by
  cases exit with
  | all running done =>
    have split := running.split
    have total := running.total
    have all : wire data transcript = data := by
      rw [running.confirmed, List.take_of_length_le (by omega)]
    exact iff_of_true (by omega) all
  | error running more negative eq =>
    subst eq
    rw [wire_snoc_nonpos (le_of_lt negative)]
    exact iff_of_false (by omega) (running.incomplete more)
  | zero running more eq =>
    subst eq
    have split := running.split
    have total := running.total
    rw [wire_snoc_nonpos le_rfl]
    exact iff_of_false (by omega) (running.incomplete more)

theorem Exit.wire_begins (exit : Exit data transcript r) : wire data transcript <+: data := by
  cases exit with
  | all running _ => exact running.wire_begins
  | error running _ negative eq =>
    subst eq
    rw [wire_snoc_nonpos (le_of_lt negative)]
    exact running.wire_begins
  | zero running _ eq =>
    subst eq
    rw [wire_snoc_nonpos le_rfl]
    exact running.wire_begins

theorem Sound.exact (held : Sound data t) (short : data.length < 2 ^ 32)
    (answered : t.transcript.map Prod.snd = results) : Exact data results t := by
  have field : ∀ m ≤ data.length, m % 2 ^ 32 = m := fun m le => Nat.mod_eq_of_lt (by omega)
  refine ⟨answered, ?_, ?_, ?_, ?_, fun r place => (held.exit r place).complete, ?_⟩
  · intro front q n back eq
    rw [held.contiguous front q n back eq]
    exact ⟨rfl, field _ (Nat.sub_le _ _)⟩
  · intro l place
    rw [(held.running l place).2.request_eq]
    exact ⟨rfl, field _ (Nat.sub_le _ _)⟩
  · cases place : t.place with
    | awaiting l => exact (held.running l place).2.wire_begins
    | returned r => exact (held.exit r place).wire_begins
  · intro l place
    obtain ⟨more, running⟩ := held.running l place
    have split := running.split
    have count := running.count
    subst answered
    refine ⟨running.results_positive, ?_⟩
    rw [List.length_map]
    omega
  · intro r place
    subst answered
    cases held.exit r place with
    | all running done =>
      have exit := Exit.all running done
      have split := running.split
      have total := running.total
      have all := exit.complete.mp (by omega)
      exact Or.inl ⟨all, by omega, running.results_positive⟩
    | error running more negative eq =>
      exact Or.inr (Or.inl ⟨_, by rw [eq, List.map_append]; rfl, negative, running.results_positive⟩)
    | zero running more eq =>
      refine Or.inr (Or.inr ⟨_, by rw [eq, List.map_append]; rfl, ?_, running.results_positive⟩)
      rw [eq, wire_snoc_nonpos le_rfl, running.wire_length]
      exact running.total

/-- The bytes confirmed are a prefix at every moment; a call is over after at
most as many results as there are bytes. `send_fixed` goes through the same
states with the same requests. -/
theorem send_transmits_exactly (short : data.length < 2 ^ 32)
    (reach : RunWhile send.step Confirms (send.start data.length) results t) :
    Exact data results t ∧ RunWhile sendFixed.step Confirms (sendFixed.start data.length) results t := by
  have held := run_sound (by omega) reach
  refine ⟨held.exact short (run_transcript reach), ?_⟩
  rw [sendFixed_eq_send]
  exact reach

/-- Three bytes, confirmed one and two at a time. -/
theorem send_transmits_three_bytes :
    Exact [1, 2, 3] [1, 2] (after send.step (send.start 3) [1, 2]) := by
  have first : RunWhile send.step Confirms (send.start ([1, 2, 3] : List UInt8).length) ([] ++ [1])
      (after send.step (send.start 3) [1]) := by
    refine RunWhile.next RunWhile.start ?_ rfl
    intro l place
    cases place
    decide
  have second : RunWhile send.step Confirms (send.start ([1, 2, 3] : List UInt8).length) ([] ++ [1] ++ [2])
      (after send.step (send.start 3) [1, 2]) := by
    refine RunWhile.next first ?_ rfl
    intro l place
    cases place
    decide
  exact (send_transmits_exactly (by decide) second).1

end CoroNet.TcpConnection
