import Mathlib.Data.List.Basic

namespace Lines

variable {α : Type*} {sep : α} {bodies : List (List α)} {text more : List α}

/-- The lines one after another, each with its end. -/
def join (sep : α) (bodies : List (List α)) : List α := bodies.flatMap (· ++ [sep])

theorem join_cons (body : List α) (bodies : List (List α)) :
    join sep (body :: bodies) = body ++ sep :: join sep bodies := by
  simp [join]

variable [DecidableEq α]

/-- The lines of a text that have ended. -/
def complete (sep : α) (text : List α) : List (List α) := (text.splitOn sep).dropLast

theorem splitOn_join_append (plain : ∀ body ∈ bodies, sep ∉ body) (rest : List α) :
    (join sep bodies ++ rest).splitOn sep = bodies ++ rest.splitOn sep := by
  induction bodies with
  | nil => rfl
  | cons body bodies ih =>
    have others := ih fun other member => plain other (List.mem_cons_of_mem _ member)
    rw [join_cons, List.append_assoc, List.cons_append,
      List.splitOn_append_cons_self_of_not_mem (plain body List.mem_cons_self), others, List.cons_append]

theorem complete_join_append (plain : ∀ body ∈ bodies, sep ∉ body) (rest : List α) :
    complete sep (join sep bodies ++ rest) = bodies ++ complete sep rest := by
  rw [complete, splitOn_join_append plain, List.dropLast_append_of_ne_nil (List.splitOn_ne_nil sep rest), complete]

theorem complete_join (plain : ∀ body ∈ bodies, sep ∉ body) : complete sep (join sep bodies) = bodies := by
  have whole := complete_join_append plain []
  have nothing : complete sep [] = [] := by rw [complete, List.splitOn_nil, List.dropLast_singleton]
  rwa [List.append_nil, nothing, List.append_nil] at whole

/-- A text is its complete lines and the beginning of another. -/
theorem exists_tail (sep : α) (text : List α) :
    ∃ bodies tail, text = join sep bodies ++ tail ∧ sep ∉ tail ∧ ∀ body ∈ bodies, sep ∉ body := by
  induction text with
  | nil => exact ⟨[], [], rfl, List.not_mem_nil, nofun⟩
  | cons x text ih =>
    obtain ⟨bodies, tail, rfl, last, plain⟩ := ih
    by_cases ended : x = sep
    · subst ended
      refine ⟨[] :: bodies, tail, by rw [join_cons]; rfl, last, fun body member => ?_⟩
      rcases List.mem_cons.mp member with rfl | member
      · exact List.not_mem_nil
      · exact plain body member
    · cases bodies with
      | nil =>
        refine ⟨[], x :: tail, rfl, fun member => ?_, nofun⟩
        exact (List.mem_cons.mp member).elim (fun same => ended same.symm) last
      | cons first bodies =>
        refine ⟨(x :: first) :: bodies, tail, by simp only [join_cons, List.cons_append], last, fun body member => ?_⟩
        rcases List.mem_cons.mp member with rfl | member
        · intro inside
          exact (List.mem_cons.mp inside).elim (fun same => ended same.symm) (plain first List.mem_cons_self)
        · exact plain body (List.mem_cons_of_mem _ member)

/-- What is added to a text leaves the lines that have ended. -/
theorem complete_prefix (begins : text <+: more) : complete sep text <+: complete sep more := by
  obtain ⟨rest, rfl⟩ := begins
  obtain ⟨bodies, tail, rfl, last, plain⟩ := exists_tail sep text
  have none_ended : complete sep tail = [] := by rw [complete, List.splitOn_eq_singleton last, List.dropLast_singleton]
  rw [complete_join_append plain, none_ended, List.append_nil, List.append_assoc, complete_join_append plain]
  exact List.prefix_append _ _

/-- However a text of lines is cut off, the lines that have ended are the first of them. -/
theorem complete_of_prefix (plain : ∀ body ∈ bodies, sep ∉ body) (begins : text <+: join sep bodies) :
    complete sep text <+: bodies := by
  have kept : complete sep text <+: complete sep (join sep bodies) := complete_prefix begins
  rwa [complete_join plain] at kept

end Lines
