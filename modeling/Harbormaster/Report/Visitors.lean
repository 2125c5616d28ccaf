import Harbormaster.Report.Document

/-!
The view of explanations for visitors: when and why something happened, what
happened, and what it led to. It is drawn from the document of an explanation and
says what that document says in other places.
-/

namespace Harbormaster.Report

/-- A condition with the values that it compared. -/
def reason (evaluation : Value) : Value :=
  let condition := Condition.ofMembers (evaluation.member "condition").members
  .object
    [("condition", .text condition.label),
      ("actualValues", .text ((evaluation.member "leftValue").trace ++ " vs " ++
        (evaluation.member "rightValue").trace)),
      ("result", evaluation.member "result"),
      ("explanation", evaluation.member "message")]

/-- What an action is about: its target, or the rule or the event that it names. -/
def subject (action : Value) : Value :=
  let named := ["target", "ruleId", "eventType"].filterMap fun name => (action.member name).given?
  named.head?.getD ""

/-- An action with the change that it made. -/
def happening (application : Value) : Value :=
  let action := application.member "action"
  .object
    [("action", action.member "type"),
      ("target", subject action),
      ("changedFrom", application.member "before"),
      ("changedTo", application.member "after"),
      ("explanation", application.member "message")]

/-- An explanation as visitors see it. -/
def forVisitors (e : Value) : Value :=
  .object
    [("ruleId", e.member "ruleId"),
      ("priority", e.member "priority"),
      ("triggered", e.member "triggered"),
      ("when", .text ("Time step " ++ e.shown "timestamp")),
      ("why", .object
        [("conditions", .list ((e.items "conditionsEvaluated").map reason)),
          ("logic", e.member "logicUsed")]),
      ("whatHappened", .object
        [("actions", .list ((e.items "actionsApplied").map happening))]),
      ("sideEffects", e.member "sideEffects"),
      ("causalChain", .object
        [("triggeredBy", e.member "triggeredBy"),
          ("triggeredRules", e.member "triggeredRules"),
          ("events", e.member "eventsGenerated")]),
      ("message", e.member "message")]

/-- A committed tick with its explanations as visitors see them. -/
def snapshotForVisitors (snapshot : Value) : Value :=
  match snapshot with
  | .record r =>
    .record (r.set "explanations" (.list ((snapshot.items "explanations").map forVisitors)))
  | v => v

end Harbormaster.Report
