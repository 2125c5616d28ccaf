import Harbormaster.Condition.Comparison
import Harbormaster.Expression.Operand

/-!
Evaluation of conditions. Every condition of a list is evaluated, so that an
explanation covers them all, and the outcome is then decided as if evaluation
had stopped at the first condition that settles it. A failure while a condition
is evaluated is kept with it, counts as a condition that does not hold, and
keeps the rule from firing.
-/

namespace Harbormaster

/-- What is known of a condition once it has been evaluated. -/
structure Evaluation where
  condition : Condition
  leftValue : Value
  rightValue : Value
  /-- Whether the condition holds; none where its operator is not one that
  conditions have. -/
  result : Option Bool
  message : String
  /-- The rules whose events this condition reads. -/
  eventSources : List Value
  failure : Option RecordedFailure

/-- Whether a condition was found to hold. -/
def Evaluation.holds (e : Evaluation) : Bool := e.result == some true

/-- The outcome of a list of conditions. -/
structure ConditionsOutcome where
  triggered : Bool
  evaluations : List Evaluation
  /-- The place of the condition that settles the outcome, if one does. -/
  decidedBy : Option Nat
  failed : Bool

namespace Condition

/-- The path that a side of a condition names. -/
def pathOf? (side : Value) : Option Path := side.text?.bind Path.parse?

/-- The rule that spawned the event a side reads, if that event is there. -/
def sourceOf? (w : World) (side : Value) : Option Value :=
  match pathOf? side with
  | some (.event eventType _) =>
    (w.event? eventType).map fun event => (event.property? "sourceRule").getD .missing
  | _ => none

/-- The source rules of the events that the sides of a condition name. -/
def eventSources (c : Condition) (w : World) : List Value :=
  match sourceOf? w c.left, sourceOf? w c.right with
  | some a, some b => if a.sameItem b then [a] else [a, b]
  | some a, none => [a]
  | none, some b => [b]
  | none, none => []

/-- The operator as it is written. -/
def operatorText (c : Condition) : String := c.members.shown "operator"

/-- The condition as a reader sees it, without its outcome. -/
def label (c : Condition) : String :=
  c.left.operandText ++ " " ++ c.operatorText ++ " " ++ c.right.operandText

def failedEvaluation (c : Condition) (w : World) (leftValue rightValue : Value)
    (failure : Failure) : Evaluation :=
  { condition := c, leftValue, rightValue, result := some false
    message := c.label ++ " -> error: " ++ failure.message
    eventSources := c.eventSources w
    failure := some failure.recorded }

/-- The message of a condition that was compared. -/
def comparedMessage (c : Condition) (leftValue rightValue : Value) (result : Value) : String :=
  c.left.operandText ++ " [" ++ leftValue.trace ++ "] " ++ c.operatorText ++ " " ++
    c.right.operandText ++ " [" ++ rightValue.trace ++ "] -> " ++ result.plainText

/-- Whether both sides read one cell of the world. -/
def readsOneCell (c : Condition) : Bool :=
  match pathOf? c.left, pathOf? c.right with
  | some left, some right => left = right
  | _, _ => false

/-- Compares the values of both sides, if there is an operator for it. -/
def compare (c : Condition) (leftValue rightValue : Value) : Except Failure (Option Bool) :=
  match c.operator with
  | none => .ok none
  | some operator =>
    if c.readsOneCell then (compareWithItself leftValue operator).map some
    else (compareValues leftValue operator rightValue).map some

/-- Resolves the left side, then the right side, then compares them. -/
def evaluate (c : Condition) (w : World) : Evaluation :=
  match w.resolve c.left with
  | .error failure => c.failedEvaluation w .absent .absent failure
  | .ok leftValue =>
    match w.resolve c.right with
    | .error failure => c.failedEvaluation w leftValue .absent failure
    | .ok rightValue =>
      match c.compare leftValue rightValue with
      | .error failure => c.failedEvaluation w leftValue rightValue failure
      | .ok result =>
        { condition := c, leftValue, rightValue, result
          message := c.comparedMessage leftValue rightValue ((result.map .boolean).getD .missing)
          eventSources := c.eventSources w
          failure := none }

end Condition

/-- The result that settles a list of conditions at once. -/
def Logic.settling : Logic → Bool
  | .all => false
  | .any => true

/-- Evaluates a whole list of conditions. An empty list holds under either logic. -/
def evaluateConditions (conditions : List Condition) (logic : Logic) (w : World) :
    ConditionsOutcome :=
  let evaluations := conditions.map (·.evaluate w)
  let failed := evaluations.any (·.failure.isSome)
  let decidedBy := evaluations.findIdx? (·.result == some logic.settling)
  let holds := match logic with
    | .all => decidedBy.isNone
    | .any => decidedBy.isSome || conditions.isEmpty
  { triggered := !failed && holds, evaluations, decidedBy, failed }

end Harbormaster
