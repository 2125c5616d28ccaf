import Harbormaster.History.Cursor

/-!
Moves of a cursor. A move that fails leaves the cursor where it was, and one that succeeds
shows the commit on which the cursor then stands. How far a cursor has come is the number of
commits up to and including the one that it shows; going forward shows the commit behind these.
-/

namespace Harbormaster

variable {ρ : Type} {commits later : List (Commit ρ)} {c : Cursor} {commit : Commit ρ}
  {place : Nat}

namespace Cursor

inductive Move where
  | forward
  | back
  | seek (tick : Number)

def move (c : Cursor) (commits : List (Commit ρ)) : Move → Option (Commit ρ) × Cursor
  | .forward => c.forward commits
  | .back => c.back commits
  | .seek tick => c.seek commits tick

def Stands (c : Cursor) (commits : List (Commit ρ)) : Prop :=
  ∀ place, c.position = some place → place < commits.length

def reached (c : Cursor) : Nat := c.position.elim 0 (· + 1)

section Moving

theorem moveTo_cases (c : Cursor) (commits : List (Commit ρ)) (place : Nat) :
    commits[place]? = none ∧ c.moveTo commits place = (none, c) ∨
      ∃ commit, commits[place]? = some commit ∧
        c.moveTo commits place = (some commit, ⟨some place⟩) := by
  unfold moveTo
  cases hplace : commits[place]? with
  | none => exact .inl ⟨rfl, rfl⟩
  | some commit => exact .inr ⟨commit, rfl, rfl⟩

/-- A move forward goes to the commit behind those that the cursor has come by. -/
theorem forward_eq (c : Cursor) (commits : List (Commit ρ)) :
    c.forward commits = c.moveTo commits c.reached := by
  unfold forward reached
  cases c.position <;> rfl

/-- A move fails and changes nothing, or it shows the commit at some place and goes there. -/
theorem move_cases (c : Cursor) (commits : List (Commit ρ)) (m : Move) :
    c.move commits m = (none, c) ∨
      ∃ place commit, commits[place]? = some commit ∧
        c.move commits m = (some commit, ⟨some place⟩) := by
  have hto (target : Nat) : c.moveTo commits target = (none, c) ∨
      ∃ place commit, commits[place]? = some commit ∧
        c.moveTo commits target = (some commit, ⟨some place⟩) :=
    (c.moveTo_cases commits target).imp And.right fun h => ⟨target, h⟩
  cases m with
  | forward =>
    simp only [move, forward_eq]
    exact hto _
  | back =>
    simp only [move, back]
    split
    · exact hto _
    · exact .inl rfl
  | seek tick =>
    simp only [move, seek]
    split
    · exact hto _
    · exact .inl rfl

/-- A cursor shows what its last move has shown. -/
theorem current_move (m : Move) (hshown : (c.move commits m).1 = some commit) :
    (c.move commits m).2.current commits = some commit := by
  rcases c.move_cases commits m with hfails | ⟨place, found, hplace, hshows⟩
  · rw [hfails] at hshown
    cases hshown
  · rw [hshows] at hshown ⊢
    cases hshown
    exact hplace

/-- What is shown is in the history. -/
theorem mem_of_move (m : Move) (hshown : (c.move commits m).1 = some commit) :
    commit ∈ commits := by
  have hcurrent := current_move m hshown
  obtain ⟨place, -, hplace⟩ := Option.bind_eq_some_iff.mp hcurrent
  exact List.mem_of_getElem? hplace

end Moving

section Standing

theorem stands_new (commits : List (Commit ρ)) : new.Stands commits := fun _ h => by cases h

theorem Stands.reached_le (h : c.Stands commits) : c.reached ≤ commits.length := by
  unfold reached
  cases hposition : c.position with
  | none => exact Nat.zero_le _
  | some place => exact h place hposition

/-- Commits that are added move no cursor. -/
theorem Stands.append (h : c.Stands commits) (later : List (Commit ρ)) :
    c.Stands (commits ++ later) := by
  intro place hposition
  have hplace := h place hposition
  rw [List.length_append]
  omega

theorem Stands.move (h : c.Stands commits) (m : Move) : (c.move commits m).2.Stands commits := by
  rcases c.move_cases commits m with hfails | ⟨place, commit, hplace, hshows⟩
  · rw [hfails]
    exact h
  · rw [hshows]
    rintro _ ⟨⟩
    exact (List.getElem?_eq_some_iff.mp hplace).1

/-- What a cursor shows does not change with the commits that are added. -/
theorem Stands.current_append (h : c.Stands commits) (later : List (Commit ρ)) :
    c.current (commits ++ later) = c.current commits := by
  unfold current
  cases hposition : c.position with
  | none => rfl
  | some place => exact List.getElem?_append_left (h place hposition)

/-- The way back and then forward leads to where it began, whatever is added meanwhile. -/
theorem Stands.forward_of_back (h : c.Stands commits) (later : List (Commit ρ))
    (hback : (c.back commits).1.isSome = true) :
    (c.current commits).isSome = true ∧
      (c.back commits).2.forward (commits ++ later) = (c.current commits, c) := by
  obtain ⟨_ | _ | place⟩ := c
  · cases hback
  · cases hback
  · have hplace : place + 1 < commits.length := h _ rfl
    have hformer : place < commits.length := by omega
    simp [back, forward, moveTo, current, hplace, hformer, List.getElem?_append_left]

/-- And so does the way forward and then back from a commit that is shown. -/
theorem Stands.back_of_forward (h : c.Stands commits) (later : List (Commit ρ))
    (hcurrent : (c.current commits).isSome = true)
    (hforward : (c.forward commits).1.isSome = true) :
    (c.forward commits).2.back (commits ++ later) = (c.current commits, c) := by
  obtain ⟨_ | place⟩ := c
  · cases hcurrent
  · have hplace : place < commits.length := h _ rfl
    rw [forward_eq] at hforward ⊢
    rcases moveTo_cases ⟨some place⟩ commits (reached ⟨some place⟩) with
      ⟨-, hfails⟩ | ⟨commit, -, hshows⟩
    · rw [hfails] at hforward
      cases hforward
    · rw [hshows]
      simp [back, moveTo, reached, current, hplace, List.getElem?_append_left]

end Standing

end Cursor

end Harbormaster
