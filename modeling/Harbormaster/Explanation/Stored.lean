import Harbormaster.Explanation.Basic

/-!
Explanations and conflict records as a document holds them: every value in them
is replaced by its stored form.
-/

namespace Harbormaster

def Condition.stored (c : Condition) : Condition := { c with members := c.members.stored }

def Action.stored (a : Action) : Action := { a with members := a.members.stored }

def Evaluation.stored (e : Evaluation) : Evaluation :=
  { e with
    condition := e.condition.stored
    leftValue := e.leftValue.stored
    rightValue := e.rightValue.stored
    eventSources := Value.storedItems e.eventSources }

def LogEntry.stored (l : LogEntry) : LogEntry :=
  { l with
    message := l.message.stored
    target := l.target.stored
    targetValue := l.targetValue.stored }

def Recommendation.stored (r : Recommendation) : Recommendation :=
  ⟨r.members.stored⟩

def Application.stored (a : Application) : Application :=
  { a with
    action := a.action.stored
    before := a.before.stored
    after := a.after.stored
    event := a.event.map Event.stored
    log := a.log.map LogEntry.stored
    recommendation := a.recommendation.map Recommendation.stored }

def ConditionMet.stored (c : ConditionMet) : ConditionMet :=
  { c with
    operator := c.operator.stored
    leftValue := c.leftValue.stored
    rightValue := c.rightValue.stored }

def Cause.stored (c : Cause) : Cause :=
  { logic := c.logic.stored
    conditionsMet := c.conditionsMet.map ConditionMet.stored
    triggeredBy := c.triggeredBy.stored
    values := c.values.stored }

def Change.stored (c : Change) : Change :=
  { c with target := c.target.stored, former := c.former.stored, latter := c.latter.stored }

def Effect.stored (e : Effect) : Effect :=
  { e with
    changes := e.changes.map Change.stored
    recommendations := e.recommendations.map Recommendation.stored
    eventsSpawned := Value.storedItems e.eventsSpawned
    values := e.values.stored }

def Explanation.stored (e : Explanation) : Explanation :=
  { e with
    priority := e.priority.stored
    timestamp := e.timestamp.stored
    conditionsEvaluated := e.conditionsEvaluated.map Evaluation.stored
    logic := e.logic.stored
    actionsApplied := e.actionsApplied.map Application.stored
    eventsGenerated := Value.storedItems e.eventsGenerated
    triggeredBy := e.triggeredBy.stored
    cause := e.cause.stored
    effect := e.effect.stored }

def ConflictResult.stored (r : ConflictResult) : ConflictResult :=
  { r with finalValue := r.finalValue.stored }

def ConflictRecord.stored (r : ConflictRecord) : ConflictRecord :=
  { r with
    timestamp := r.timestamp.stored
    conflictingActions := r.conflictingActions.map Action.stored
    result := r.result.stored }

end Harbormaster
