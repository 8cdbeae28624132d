import CoroNet.Connection.Transmit
import Mathlib.Data.List.Basic

namespace CoroNet.TcpConnection

open Transition

variable {data : List UInt8} {size : Nat} {results : List Int} {t u : Transfer} {l : SendLoop} {n r : Int}

theorem Answers.confirms (answers : Answers t n) : Confirms t n :=
  fun l place => (answers l place).1

/-- What the kernel leaves the loop with: a request never reaches beyond the
next multiple of 2^32, and there the field of the request is 0. -/
structure Wrapped (size : Nat) (t : Transfer) : Prop where
  position : ∀ l, t.place = .awaiting l → l.p + l.remaining = size ∧ l.total = l.p ∧ 0 < l.remaining ∧
    l.p ≤ size % 2 ^ 32
  result : ∀ r, t.place = .returned r → r = (size % 2 ^ 32 : Nat)

theorem whileRemaining_wrapped {transcript : List (Request × Int)} (split : l.p + l.remaining = size)
    (total : l.total = l.p) (bound : l.p ≤ size % 2 ^ 32) :
    Wrapped size { place := whileRemaining l, transcript := transcript } := by
  unfold whileRemaining
  split
  next more =>
    refine ⟨fun _ eq => ?_, fun _ eq => by cases eq⟩
    cases eq
    exact ⟨split, total, more, bound⟩
  next done =>
    refine ⟨(fun _ eq => by cases eq), fun _ eq => ?_⟩
    cases eq
    have le := Nat.mod_le size (2 ^ 32)
    omega

theorem Wrapped.resume (held : Wrapped size t) (fits : size < 2 ^ 63) (place : t.place = .awaiting l)
    (answers : Answers t n) :
    Wrapped size { place := send.resume l n, transcript := t.transcript ++ [(send.request l, n)] } := by
  obtain ⟨split, total, more, bound⟩ := held.position l place
  obtain ⟨le, some, none⟩ := answers l place
  have field : (send.request l).len = l.remaining % 2 ^ 32 := rfl
  rw [field] at le some none
  simp only [send]
  split_ifs with negative zero
  · omega
  · -- an empty request: the bytes left are a multiple of 2^32
    refine ⟨(fun _ eq => by cases eq), fun _ eq => ?_⟩
    cases eq
    omega
  · have count : toSizeT n = n.toNat := by
      unfold toSizeT
      omega
    have remaining : SizeT.sub l.remaining (toSizeT n) = l.remaining - n.toNat := by
      rw [count]
      exact SizeT.sub_of_le (by omega) (by omega)
    apply whileRemaining_wrapped
    · simp only [remaining]
      omega
    · simp only
      omega
    · simp only
      omega

theorem run_wrapped (fits : size < 2 ^ 63) (reach : RunWhile send.step Answers (send.start size) results t) :
    Wrapped size t := by
  refine reach.invariant (P := Wrapped size) ?_ ?_
  · exact whileRemaining_wrapped (Nat.zero_add size) rfl (Nat.zero_le _)
  · intro t n u held answers move
    obtain ⟨l, place, rfl⟩ := step_cases move
    exact held.resume fits place answers

/-- A call comes to its end within as many results as there are bytes and one
more, and what it returns is the length modulo 2^32: all of it exactly where
the length has no more than 32 bits. -/
theorem send_complete_iff (fits : data.length < 2 ^ 63)
    (reach : RunWhile send.step Answers (send.start data.length) results t) :
    (∀ l, t.place = .awaiting l → results.length < data.length) ∧
      ∀ r, t.place = .returned r → ((r = data.length ∨ r < 0) ↔ data.length < 2 ^ 32) := by
  have confirmed : RunWhile send.step Confirms (send.start data.length) results t :=
    reach.weaken fun _ _ _ _ answers => answers.confirms
  refine ⟨fun l place => ?_, fun r place => ?_⟩
  · obtain ⟨more, running⟩ := (run_sound fits confirmed).running l place
    have split := running.split
    have count := running.count
    rw [← run_transcript confirmed, List.length_map]
    omega
  · have value := (run_wrapped fits reach).result r place
    omega

theorem send_complete_two_bytes : (after send.step (send.start 2) [1, 1]).place = .returned 2 ∧
    (((2 : Int) = ([7, 9] : List UInt8).length ∨ (2 : Int) < 0) ↔ ([7, 9] : List UInt8).length < 2 ^ 32) := by
  have first : RunWhile send.step Answers (send.start ([7, 9] : List UInt8).length) ([] ++ [1])
      (after send.step (send.start 2) [1]) := by
    refine RunWhile.next RunWhile.start ?_ rfl
    intro l place
    cases place
    decide
  have second : RunWhile send.step Answers (send.start ([7, 9] : List UInt8).length) ([] ++ [1] ++ [1])
      (after send.step (send.start 2) [1, 1]) := by
    refine RunWhile.next first ?_ rfl
    intro l place
    cases place
    decide
  exact ⟨rfl, (send_complete_iff (by decide) second).2 2 rfl⟩

/-- 4 GiB: the first request has length 0, its result is 0, and that is what
`send` returns. -/
theorem four_gigabytes_lost :
    ∃ t, RunWhile send.step Answers (send.start (List.replicate (2 ^ 32) (0 : UInt8)).length) [0] t ∧
      t.place = .returned 0 := by
  rw [List.length_replicate]
  have reach : RunWhile send.step Answers (send.start (2 ^ 32)) ([] ++ [0]) ⟨.returned 0, [(⟨0, 0⟩, 0)]⟩ := by
    refine RunWhile.next RunWhile.start ?_ rfl
    intro l place
    cases place
    decide
  exact ⟨_, reach, rfl⟩

end CoroNet.TcpConnection
