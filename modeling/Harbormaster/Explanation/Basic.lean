import Harbormaster.Condition.Evaluation
import Harbormaster.Conflict.Basic

/-!
Explanations: what happened to a rule in a tick and why. They hold the whole
trace of its conditions and actions, the causes and effects drawn from it, and a
message for readers.
-/

namespace Harbormaster

structure LogEntry where
  level : String
  message : Value
  /-- The path that is logged, if there is one, and its value. -/
  target : Value
  targetValue : Value

/-- The level as readers see it. -/
def LogEntry.heading (l : LogEntry) : String := "[" ++ l.level.toUpper ++ "]"

/-- A recommendation with its members as they were written. -/
structure Recommendation where
  members : Record Value

namespace Recommendation

/-- Recommends a value for a cell that holds another one now. -/
def new (target : String) (value current : Value) : Recommendation :=
  ⟨.ofList [("target", .text target), ("value", value), ("current", current)]⟩

def target (r : Recommendation) : Value := r.members.member "target"

def value (r : Recommendation) : Value := r.members.member "value"

end Recommendation

/-- What an action did, or how it failed. -/
structure Application where
  action : Action
  before : Value
  after : Value
  success : Bool
  message : String
  event : Option Event
  log : Option LogEntry
  /-- The rule that this action asks to run. -/
  triggerRequest : Option String
  recommendation : Option Recommendation
  conflictId : Option String

namespace Application

/-- An application without anything but its message. -/
def plain (action : Action) (before after : Value) (message : String) : Application :=
  { action, before, after, success := true, message
    event := none, log := none, triggerRequest := none, recommendation := none
    conflictId := none }

/-- The record of an action that failed. -/
def failed (action : Action) (failure : Failure) (before : Value) : Application :=
  { plain action before before
      (action.kind.text ++ " failed: " ++ failure.recorded.line) with success := false }

end Application

/-- A condition that held, with the values it saw. -/
structure ConditionMet where
  left : String
  operator : Value
  right : String
  leftValue : Value
  rightValue : Value

structure Cause where
  logic : Value
  conditionsMet : List ConditionMet
  triggeredBy : Value
  /-- The values that the conditions saw, by path. -/
  values : Record Value

structure Change where
  kind : ActionKind
  target : Value
  former : Value
  latter : Value

structure Effect where
  changes : List Change
  recommendations : List Recommendation
  eventsSpawned : List Value
  rulesTriggered : List String
  /-- The values that the actions left behind, by path. -/
  values : Record Value

structure Explanation where
  ruleId : String
  priority : Value
  triggered : Bool
  timestamp : Value
  conditionsEvaluated : List Evaluation
  logic : Value
  decidedBy : Option Nat
  actionsApplied : List Application
  sideEffects : List String
  /-- The identifiers of the events that the rule spawned. -/
  eventsGenerated : List Value
  /-- The identifiers of the conflicts that the rule took part in. -/
  conflictsEncountered : List String
  /-- The rule that asked for this one, absent if none did. -/
  triggeredBy : Value
  triggeredRules : List String
  message : String
  cause : Cause
  effect : Effect
  failures : List RecordedFailure

end Harbormaster
