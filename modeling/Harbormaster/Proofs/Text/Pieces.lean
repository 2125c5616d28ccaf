import Mathlib.Data.List.TakeDrop
import Mathlib.Data.List.TakeWhile
import Harbormaster.Proofs.Text.Runs

/-!
Texts in pieces. A separator cuts a text at each of its places or at the first one only. What
was put together with separators comes apart into the same pieces again, if no piece has the
separator in it, and the first cut leaves what stands before the separator and what stands
behind it.
-/

namespace Harbormaster.Text

/-- A text is cut as the library cuts lists. -/
theorem splitChars_eq_splitOn (separator : Char) (cs : List Char) :
    splitChars separator cs = cs.splitOn separator := by
  induction cs with
  | nil => rfl
  | cons c rest ih =>
    rw [splitChars, List.splitOn_cons_eq_if_modifyHead, ← ih]
    by_cases hseparator : c = separator
    · simp [hseparator]
    · simp only [hseparator, if_false, beq_iff_eq]
      cases hpieces : splitChars separator rest with
      | nil => exact absurd hpieces (splitChars_ne_nil _ _)
      | cons piece pieces => rfl

/-- A separator cuts a text in two, whatever stands on either side of it. -/
theorem splitChars_append (separator : Char) (before after : List Char) :
    splitChars separator (before ++ separator :: after) =
      splitChars separator before ++ splitChars separator after := by
  induction before with
  | nil => simp [splitChars]
  | cons c rest ih =>
    rw [List.cons_append, splitChars, splitChars, ih]
    split
    · rfl
    · cases hpieces : splitChars separator rest with
      | nil => exact absurd hpieces (splitChars_ne_nil _ _)
      | cons piece pieces => rfl

theorem splitChars_of_not_mem {separator : Char} {cs : List Char} (h : separator ∉ cs) :
    splitChars separator cs = [cs] := by
  induction cs with
  | nil => rfl
  | cons c rest ih =>
    obtain ⟨hfirst, hrest⟩ := List.ne_and_not_mem_of_not_mem_cons h
    rw [splitChars, if_neg hfirst.symm, ih hrest]

/-- A cut text is made of the characters of its pieces and of separators. -/
theorem mem_splitChars {separator : Char} {cs : List Char} {c : Char} (hc : c ∈ cs)
    (hother : c ≠ separator) : ∃ piece ∈ splitChars separator cs, c ∈ piece := by
  induction cs with
  | nil => cases hc
  | cons first rest ih =>
    unfold splitChars
    rcases List.mem_cons.mp hc with rfl | hrest
    · rw [if_neg hother]
      split
      · exact ⟨_, List.mem_cons_self, List.mem_cons_self⟩
      · exact ⟨_, List.mem_cons_self, List.mem_cons_self⟩
    · obtain ⟨piece, hpiece, hmember⟩ := ih hrest
      split
      · exact ⟨piece, List.mem_cons_of_mem _ hpiece, hmember⟩
      · split
        · rename_i head tail hsplit
          rw [hsplit] at hpiece
          rcases List.mem_cons.mp hpiece with rfl | htail
          · exact ⟨_, List.mem_cons_self, List.mem_cons_of_mem _ hmember⟩
          · exact ⟨piece, List.mem_cons_of_mem _ htail, hmember⟩
        · rename_i hsplit
          exact absurd hsplit (splitChars_ne_nil _ _)

section FirstCut

variable {separator : Char} {cs : List Char}

/-- What stands before the first separator; without one it is the whole text. -/
def before (separator : Char) (cs : List Char) : List Char := cs.takeWhile (· ≠ separator)

/-- What stands behind the first separator; without one it is nothing. -/
def after (separator : Char) (cs : List Char) : List Char :=
  (cs.dropWhile (· ≠ separator)).drop 1

theorem before_append (h : separator ∉ cs) (rest : List Char) :
    before separator (cs ++ separator :: rest) = cs := by
  refine takeWhile_run (fun _ hc => decide_eq_true (ne_of_mem_of_not_mem hc h)) ?_
  rintro _ ⟨⟩
  simp

theorem after_append (h : separator ∉ cs) (rest : List Char) :
    after separator (cs ++ separator :: rest) = rest := by
  have hdrop : (cs ++ separator :: rest).dropWhile (· ≠ separator) = separator :: rest := by
    refine dropWhile_run (fun _ hc => decide_eq_true (ne_of_mem_of_not_mem hc h)) ?_
    rintro _ ⟨⟩
    simp
  rw [after, hdrop, List.drop_one, List.tail_cons]

theorem before_of_not_mem (h : separator ∉ cs) : before separator cs = cs :=
  List.takeWhile_eq_self_iff.mpr fun _ hc => decide_eq_true (ne_of_mem_of_not_mem hc h)

theorem after_of_not_mem (h : separator ∉ cs) : after separator cs = [] := by
  have hnone : cs.dropWhile (· ≠ separator) = [] :=
    List.dropWhile_eq_nil_iff.mpr fun _ hc => decide_eq_true (ne_of_mem_of_not_mem hc h)
  rw [after, hnone, List.drop_nil]

/-- A cut falls on the first separator, and there is none without a separator. -/
theorem cut?_eq (separator : Char) (s : String) :
    cut? separator s =
      if separator ∈ s.toList then
        some (.ofList (before separator s.toList), .ofList (after separator s.toList))
      else none := by
  unfold cut? before after
  rw [List.span_eq_takeWhile_dropWhile]
  by_cases h : separator ∈ s.toList
  · rw [if_pos h]
    cases hrest : s.toList.dropWhile (· ≠ separator) with
    | nil =>
      have hnone := List.dropWhile_eq_nil_iff.mp hrest separator h
      simp at hnone
    | cons c rest => rfl
  · have hrest : s.toList.dropWhile (· ≠ separator) = [] :=
      List.dropWhile_eq_nil_iff.mpr fun _ hc => decide_eq_true (ne_of_mem_of_not_mem hc h)
    rw [if_neg h, hrest]

end FirstCut

end Harbormaster.Text
