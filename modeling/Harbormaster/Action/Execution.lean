import Harbormaster.Action.Deed
import Harbormaster.Conflict.Ledger

/-!
Execution of one action. Writes go through the ledger, so that competing rules
are arbitrated; events go to the bus and are visible in the world at once. Only
a write can still fail once its deed has been drawn up.
-/

namespace Harbormaster

/-- What the actions of a tick work on. -/
structure Stage where
  world : World
  ledger : Ledger
  bus : EventBus

/-- The stage after an action, whether it was applied or failed. -/
structure Execution where
  stage : Stage
  result : Except Failure Application
  notices : List Notice

namespace Application

/-- A write that went through; a conflict is named in its message. -/
def written (action : Action) (before : Value) (outcome : WriteOutcome) (message : String) :
    Application :=
  let after := outcome.value.marked
  let plain := plain action before after message
  match outcome.conflict with
  | none => plain
  | some record =>
    { plain with
      conflictId := some record.id
      message := message ++ " (conflict " ++ record.id ++ ": " ++ record.strategy.text ++
        ", final " ++ after.trace ++ ")" }

def recommended (action : Action) (target : String) (value current : Value) : Application :=
  { plain action current current
      ("RECOMMEND " ++ target ++ " = " ++ value.trace ++ " (current: " ++ current.trace ++
        ", not enforced)") with
    recommendation := some (.new target value current) }

def triggering (action : Action) (rule : String) : Application :=
  { plain action .absent .absent ("TRIGGER_RULE: scheduling '" ++ rule ++ "'") with
    triggerRequest := some rule }

def spawned (action : Action) (before : Value) (event : Event) : Application :=
  { plain action before (.boolean true)
      ("SPAWN_EVENT: " ++ event.eventType.plainText ++ " activated (" ++
        event.severity.plainText ++ ")") with
    event := some event }

def logged (action : Action) (entry : LogEntry) : Application :=
  let suffix :=
    if entry.target.counts then
      " (" ++ entry.target.plainText ++ " = " ++ entry.targetValue.marked.trace ++ ")"
    else ""
  { plain action .absent .absent
      ("LOG " ++ entry.heading ++ ": " ++ entry.message.plainText ++ suffix) with
    log := some entry }

end Application

/-- The notice of a log action. -/
def LogEntry.notice (entry : LogEntry) (rule : Rule) : Notice :=
  let line := "[" ++ rule.id ++ "] " ++ entry.message.plainText
  match LogLevel.ofText? entry.level with
  | some .error => .error line
  | some .warning => .warning line
  | _ => .debug line

namespace Stage

def performWrite (s : Stage) (rule : Rule) (action : Action) (target : String) (value : Value)
    (range : Option ClampRange) (before : Value) (message : String) : Execution :=
  let attempt := s.ledger.write s.world
    { path := target, value, ruleId := rule.id, priority := rule.priority, action
      ruleMetadata := rule.metadata, range }
  { stage := { s with ledger := attempt.ledger, world := attempt.world }
    result := attempt.outcome.map (Application.written action before · message)
    notices := attempt.notices }

def performSpawn (s : Stage) (action : Action) (request : SpawnRequest) : Execution :=
  let type := request.eventType.plainText
  let before := if (s.world.event? type).isSome then .boolean true else .absent
  let (event, bus, notice) := s.bus.spawn request
  { stage :=
      { s with bus, world :=
        { s.world with events := s.world.events.set type event } }
    result := .ok (.spawned action before event)
    notices := [notice] }

def perform (s : Stage) (rule : Rule) (action : Action) : Deed → Execution
  | .write target value range before message =>
    s.performWrite rule action target value range before message
  | .recommend target value current =>
    ⟨s, .ok (.recommended action target value current), []⟩
  | .trigger target => ⟨s, .ok (.triggering action target), []⟩
  | .spawn request => s.performSpawn action request
  | .log entry => ⟨s, .ok (.logged action entry), [entry.notice rule]⟩

/-- Executes one action of a rule; `known` tells the rules of the set. -/
def execute (s : Stage) (known : String → Bool) (rule : Rule) (action : Action) : Execution :=
  match Deed.ofAction known rule action s.world with
  | .error failure => ⟨s, .error failure, []⟩
  | .ok deed => s.perform rule action deed

end Stage

end Harbormaster
