import Harbormaster.Explanation.Basic
import Harbormaster.World.Document

/-!
Explanations and conflict records as documents. Members that have nothing to
say are missing where they are optional and absent where they are not.
-/

namespace Harbormaster

/-- An optional member: where there is none it is missing, and not written. -/
def Value.optional (v : Option Value) : Value := v.getD .missing

def Condition.toValue (c : Condition) : Value := .record c.members

def Action.toValue (a : Action) : Value := .record a.members

def RecordedFailure.toValue (f : RecordedFailure) : Value :=
  .object
    [("name", .text f.name),
      ("code", .optional (f.code.map .text)),
      ("message", .text f.message)]

def Evaluation.toValue (e : Evaluation) : Value :=
  .object
    [("condition", e.condition.toValue),
      ("leftValue", e.leftValue),
      ("rightValue", e.rightValue),
      ("result", .optional (e.result.map .boolean)),
      ("message", .text e.message),
      ("eventSources", .list e.eventSources),
      ("error", .optional (e.failure.map RecordedFailure.toValue))]

def LogEntry.toValue (l : LogEntry) : Value :=
  .object
    [("level", .text l.level),
      ("message", l.message),
      ("target", l.target),
      ("targetValue", l.targetValue)]

def Recommendation.toValue (r : Recommendation) : Value := .record r.members

def Application.toValue (a : Application) : Value :=
  .object
    [("action", a.action.toValue),
      ("before", a.before),
      ("after", a.after),
      ("success", .boolean a.success),
      ("message", .text a.message),
      ("event", .optional (a.event.map Event.toValue)),
      ("log", .optional (a.log.map LogEntry.toValue)),
      ("triggerRequest", .optional (a.triggerRequest.map .text)),
      ("recommendation", .optional (a.recommendation.map Recommendation.toValue)),
      ("conflictId", .optional (a.conflictId.map .text))]

def ConditionMet.toValue (c : ConditionMet) : Value :=
  .object
    [("left", .text c.left),
      ("operator", c.operator),
      ("right", .text c.right),
      ("leftValue", c.leftValue),
      ("rightValue", c.rightValue)]

def Cause.toValue (c : Cause) : Value :=
  .object
    [("logic", c.logic),
      ("conditionsMet", .list (c.conditionsMet.map ConditionMet.toValue)),
      ("triggeredBy", c.triggeredBy),
      ("values", .record c.values)]

def Change.toValue (c : Change) : Value :=
  .object
    [("type", .text c.kind.text),
      ("target", c.target),
      ("from", c.former),
      ("to", c.latter)]

def Effect.toValue (e : Effect) : Value :=
  .object
    [("changes", .list (e.changes.map Change.toValue)),
      ("recommendations", .list (e.recommendations.map Recommendation.toValue)),
      ("eventsSpawned", .list e.eventsSpawned),
      ("rulesTriggered", .ofTexts e.rulesTriggered),
      ("values", .record e.values)]

/-- A place in a list, if there is one. -/
def placeValue : Option Nat → Value
  | some place => .ofNat place
  | none => .absent

def Explanation.toValue (e : Explanation) : Value :=
  .object
    [("ruleId", .text e.ruleId),
      ("priority", e.priority),
      ("triggered", .boolean e.triggered),
      ("timestamp", e.timestamp),
      ("conditionsEvaluated", .list (e.conditionsEvaluated.map Evaluation.toValue)),
      ("logicUsed", e.logic),
      ("decidedBy", placeValue e.decidedBy),
      ("actionsApplied", .list (e.actionsApplied.map Application.toValue)),
      ("sideEffects", .ofTexts e.sideEffects),
      ("eventsGenerated", .list e.eventsGenerated),
      ("conflictsEncountered", .ofTexts e.conflictsEncountered),
      ("triggeredBy", e.triggeredBy),
      ("triggeredRules", .ofTexts e.triggeredRules),
      ("message", .text e.message),
      ("cause", e.cause.toValue),
      ("effect", e.effect.toValue),
      ("errors", .list (e.failures.map RecordedFailure.toValue))]

def ConflictResult.toValue (r : ConflictResult) : Value :=
  .object
    [("finalValue", r.finalValue),
      ("keptRule", .ofText? r.keptRule),
      ("mergedRules", .ofTexts r.mergedRules),
      ("fallbackFrom", .optional (r.fallbackFrom.map (.text ·.text))),
      ("note", .optional (r.note.map .text))]

def ConflictRecord.toValue (r : ConflictRecord) : Value :=
  .object
    [("id", .text r.id),
      ("path", .text r.path),
      ("timestamp", r.timestamp),
      ("conflictingRules", .ofTexts r.conflictingRules),
      ("conflictingActions", .list (r.conflictingActions.map Action.toValue)),
      ("resolutionStrategy", .text r.strategy.text),
      ("resolutionResult", r.result.toValue),
      ("resolved", .boolean r.resolved)]

end Harbormaster
