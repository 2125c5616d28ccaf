import Harbormaster.Action.Execution
import Harbormaster.Condition.Evaluation

/-!
A recursive procedure that evaluates rules. It visits rules in a given order, skips
those that were evaluated already, and after the actions of a rule visits the rules
that these asked for before it goes on. It knows of no queue and of no limit: every
visit that finds its rule leaves fewer rules to evaluate.
-/

namespace Harbormaster

/-- A rule that is to be visited, with the rule that asked for it, if one did. -/
structure Visit where
  ruleId : String
  triggeredBy : Option String
  deriving DecidableEq, Repr

structure Walk where
  stage : Stage
  /-- The rules not evaluated yet. -/
  waiting : List Rule
  /-- The visits at which rules were evaluated, in order. -/
  visits : List Visit

namespace Walk

/-- Whether a request for a rule is accepted: the rule has to wait still, and the
same rule must not have asked for it before. -/
def accepts (waiting : List Rule) (asked : List String) (target : String) : Bool :=
  waiting.any (·.id = target) && !asked.contains target

/-- Applies actions in order until one of them fails, and gives the rules that they
asked for. -/
def applyActions (known : String → Bool) (waiting : List Rule) (rule : Rule) :
    List Action → Stage → List String → Stage × List String
  | [], s, asked => (s, asked)
  | action :: rest, s, asked =>
    let execution := s.execute known rule action
    match execution.result with
    | .error _ => (execution.stage, asked)
    | .ok application =>
      let accepted := application.triggerRequest.filter (accepts waiting asked)
      applyActions known waiting rule rest execution.stage (asked ++ accepted.toList)

/-- Evaluates a rule on the world as it is now, and applies its actions if its
conditions hold. -/
def turn (known : String → Bool) (waiting : List Rule) (rule : Rule) (s : Stage) :
    Stage × List String :=
  if (evaluateConditions rule.conditions rule.junction s.world).triggered then
    applyActions known waiting rule rule.actions s []
  else (s, [])

def below (rule : Rule) (asked : List String) : List Visit := asked.map (⟨·, some rule.id⟩)

/-- The walk once a rule has had its turn, and what is to be visited below it. -/
def evaluate (known : String → Bool) (w : Walk) (visit : Visit) (rule : Rule) :
    Walk × List Visit :=
  let waiting := w.waiting.eraseP (·.id = visit.ruleId)
  let turned := turn known waiting rule w.stage
  (⟨turned.1, waiting, w.visits ++ [visit]⟩, below rule turned.2)

/-- Visits rules one after the other, and below each one that is evaluated the rules
that it asks for. -/
def visitAll (known : String → Bool) (w : Walk) (visits : List Visit) :
    { w' : Walk // w'.waiting.length ≤ w.waiting.length } :=
  match visits with
  | [] => ⟨w, Nat.le_refl _⟩
  | visit :: rest =>
    match found : w.waiting.find? (·.id = visit.ruleId) with
    | none => visitAll known w rest
    | some rule =>
      have fewer : (evaluate known w visit rule).1.waiting.length < w.waiting.length := by
        have member := List.mem_of_find?_eq_some found
        simp only [evaluate, List.length_eraseP_of_mem member (List.find?_some found)]
        exact Nat.sub_lt (List.length_pos_of_mem member) (by decide)
      let inner := visitAll known (evaluate known w visit rule).1 (evaluate known w visit rule).2
      have inner_fewer := Nat.lt_of_le_of_lt inner.2 fewer
      let outer := visitAll known inner.val rest
      ⟨outer.val, Nat.le_of_lt (Nat.lt_of_le_of_lt outer.2 inner_fewer)⟩
termination_by (w.waiting.length, visits.length)
decreasing_by
  · exact Prod.Lex.right _ (Nat.lt_succ_self _)
  · exact Prod.Lex.left _ _ fewer
  · exact Prod.Lex.left _ _ inner_fewer

/-- Where the procedure ends. -/
def after (known : String → Bool) (w : Walk) (visits : List Visit) : Walk :=
  (visitAll known w visits).val

section Equations

variable {known : String → Bool} {w : Walk} {visit : Visit} {rest : List Visit} {rule : Rule}

@[simp] theorem after_nil : after known w [] = w := by
  unfold after
  rw [visitAll]

theorem after_cons_of_none (h : w.waiting.find? (·.id = visit.ruleId) = none) :
    after known w (visit :: rest) = after known w rest := by
  unfold after
  rw [visitAll]
  split
  · rfl
  · rename_i hsome
    rw [h] at hsome
    cases hsome

theorem after_cons_of_some (h : w.waiting.find? (·.id = visit.ruleId) = some rule) :
    after known w (visit :: rest) =
      after known (after known (evaluate known w visit rule).1 (evaluate known w visit rule).2)
        rest := by
  unfold after
  rw [visitAll]
  split
  · rename_i hnone
    rw [h] at hnone
    cases hnone
  · rename_i hsome
    rw [h] at hsome
    cases hsome
    rfl

/-- To visit two lists of rules is to visit the one and then the other. -/
theorem after_append (former latter : List Visit) :
    after known w (former ++ latter) = after known (after known w former) latter := by
  induction former generalizing w with
  | nil => simp
  | cons visit rest ih =>
    rw [List.cons_append]
    cases hfound : w.waiting.find? (·.id = visit.ruleId) with
    | none => rw [after_cons_of_none hfound, after_cons_of_none hfound, ih]
    | some rule => rw [after_cons_of_some hfound, after_cons_of_some hfound, ih]

/-- What a rule asks for can be put in front of what is left to visit. -/
theorem after_cons (h : w.waiting.find? (·.id = visit.ruleId) = some rule) :
    after known w (visit :: rest) =
      after known (evaluate known w visit rule).1
        ((evaluate known w visit rule).2 ++ rest) := by
  rw [after_cons_of_some h, after_append]

end Equations

end Walk

end Harbormaster
