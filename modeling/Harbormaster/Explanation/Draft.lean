import Harbormaster.Explanation.Basic
import Harbormaster.Explanation.Template

/-!
Drafts of explanations. A draft collects what happens to a rule during a tick;
conflicts that are found later in the tick are still added to it. At the end of
the tick `Draft.build` draws the explanation from it.
-/

namespace Harbormaster

structure Draft where
  rule : Rule
  timestamp : Value
  /-- The rule that asked for this one, absent if none did. -/
  triggeredBy : Value
  outcome : ConditionsOutcome
  applications : List Application
  sideEffects : List String
  eventsGenerated : List Value
  conflicts : List String
  triggeredRules : List String
  failures : List RecordedFailure

namespace Draft

def new (rule : Rule) (timestamp triggeredBy : Value) : Draft :=
  { rule, timestamp, triggeredBy
    outcome := ⟨false, [], none, false⟩
    applications := [], sideEffects := [], eventsGenerated := [], conflicts := []
    triggeredRules := [], failures := [] }

def addSideEffect (d : Draft) (text : String) : Draft :=
  { d with sideEffects := d.sideEffects ++ [text] }

def addFailure (d : Draft) (failure : RecordedFailure) : Draft :=
  { d with failures := d.failures ++ [failure], sideEffects := d.sideEffects ++ [failure.line] }

/-- Takes over the outcome of the conditions and every failure among them. -/
def recordConditions (d : Draft) (outcome : ConditionsOutcome) : Draft :=
  (outcome.evaluations.filterMap (·.failure)).foldl addFailure { d with outcome }

/-- The rule that an application asks to run; an empty name asks for none. -/
def requestedRule? (a : Application) : Option String := a.triggerRequest.filter (!·.isEmpty)

/-- The side effects of an application that succeeded, as readers see them. -/
def effectsOf (a : Application) : List String :=
  (match requestedRule? a with
    | some rule => ["Triggered rule: " ++ rule]
    | none => []) ++
  (match a.event with
    | some event =>
      ["Spawned event: " ++ event.eventType.plainText ++ " (" ++ event.id.plainText ++ ")"]
    | none => []) ++
  (match a.log with
    | some entry => [entry.heading ++ " " ++ entry.message.plainText]
    | none => [])

def recordApplication (d : Draft) (a : Application) : Draft :=
  let d := { d with applications := d.applications ++ [a] }
  if a.success then
    { d with
      triggeredRules := d.triggeredRules ++ (requestedRule? a).toList
      eventsGenerated := d.eventsGenerated ++ (a.event.map (·.id)).toList
      sideEffects := d.sideEffects ++ effectsOf a }
  else d

/-- Adds a conflict once, however often it is reported. -/
def recordConflict (d : Draft) (id summary : String) : Draft :=
  if d.conflicts.contains id then d
  else { d with conflicts := d.conflicts ++ [id], sideEffects := d.sideEffects ++ [summary] }

/-- The value that one side of a condition saw, if it names a cell. -/
def observed (side value : Value) (values : Record Value) : Record Value :=
  match side.text?.filter isFieldPath with
  | some path => values.set path value
  | none => values

def cause (d : Draft) : Cause :=
  { logic := d.rule.logic
    conditionsMet := (d.outcome.evaluations.filter (·.holds)).map fun e =>
      { left := e.condition.left.operandText
        operator := e.condition.members.member "operator"
        right := e.condition.right.operandText
        leftValue := e.leftValue
        rightValue := e.rightValue }
    triggeredBy := d.triggeredBy
    values := d.outcome.evaluations.foldl (fun values e =>
      observed e.condition.right e.rightValue (observed e.condition.left e.leftValue values)) ∅ }

/-- The change that an application made to a cell, if it made one. -/
def changeOf (a : Application) : Option Change :=
  let target := a.action.target
  if target.counts && a.action.kind.isMutating then
    some ⟨a.action.kind, target, a.before, a.after⟩
  else none

/-- The values that an application leaves behind. -/
def addValues (values : Record Value) (a : Application) : Record Value :=
  let values := match changeOf a with
    | some change => values.set change.target.plainText change.latter
    | none => values
  match a.recommendation with
  | some r => values.set r.target.plainText r.value
  | none => values

def effect (d : Draft) : Effect :=
  let done := d.applications.filter (·.success)
  { changes := done.filterMap changeOf
    recommendations := done.filterMap (·.recommendation)
    eventsSpawned := done.filterMap fun a => a.event.map (·.eventType)
    rulesTriggered := d.triggeredRules
    values := done.foldl addValues ∅ }

/-- Adds values under their paths, and under their paths with a heading. -/
def addNamed (heading : String) (values added : Record Value) : Record Value :=
  added.entries.foldl (fun values m =>
    (values.set m.1 m.2).set (heading ++ "." ++ m.1) m.2) values

/-- The names that a template may use. -/
def templateValues (d : Draft) : Record Value :=
  let basic : Record Value := .ofList
    [("rule_id", .text d.rule.id), ("priority", d.rule.priority),
      ("timestamp", d.timestamp), ("triggered_by", d.triggeredBy)]
  addNamed "effect" (addNamed "cause" basic d.cause.values) d.effect.values

/-- The message of a rule that does not fire. -/
def summary (d : Draft) : String :=
  if d.outcome.failed then
    "Rule " ++ d.rule.id ++ " not triggered: condition evaluation failed"
  else
    let met := (d.outcome.evaluations.filter (·.holds)).length
    "Rule " ++ d.rule.id ++ " not triggered: " ++ met.repr ++ "/" ++
      d.outcome.evaluations.length.repr ++ " conditions met (" ++ d.rule.logic.plainText ++ ")"

/-- The message, and the template names that have no value. -/
def message (d : Draft) : Template.Expansion :=
  if !d.outcome.triggered then ⟨d.summary, []⟩
  else if d.rule.template.isEmpty then
    ⟨"Rule " ++ d.rule.id ++ " triggered: " ++
      (d.applications.filter (·.success)).length.repr ++ " action(s) applied", []⟩
  else Template.expand d.rule.template d.templateValues

def unresolvedNote (name : String) : String :=
  "Unresolved template placeholder: \x7b\x7b" ++ name ++ "\x7d\x7d"

def build (d : Draft) : Explanation :=
  let message := d.message
  { ruleId := d.rule.id
    priority := d.rule.priority
    triggered := d.outcome.triggered
    timestamp := d.timestamp
    conditionsEvaluated := d.outcome.evaluations
    logic := d.rule.logic
    decidedBy := d.outcome.decidedBy
    actionsApplied := d.applications
    sideEffects := d.sideEffects ++ message.unresolved.map unresolvedNote
    eventsGenerated := d.eventsGenerated
    conflictsEncountered := d.conflicts
    triggeredBy := d.triggeredBy
    triggeredRules := d.triggeredRules
    message := message.message
    cause := d.cause
    effect := d.effect
    failures := d.failures }

end Draft

end Harbormaster
