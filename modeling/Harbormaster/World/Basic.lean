import Harbormaster.Rule.Basic

/-!
The world that rules read and write: agents with their fields, the environment,
global metrics, the time step and the events that are visible now. Whatever else
a document says of the world, of an agent or of an event is kept as it is.
-/

namespace Harbormaster

/-- An event spawned by a rule, with its members as they were written. -/
structure Event where
  members : Record Value

namespace Event

/-- The severities that rule documents may name. -/
def severities : List String := ["normal", "warning", "critical"]

def standardSeverity : String := "normal"

def id (e : Event) : Value := e.members.member "id"

def sourceRule (e : Event) : Value := e.members.member "sourceRule"

def eventType (e : Event) : Value := e.members.member "eventType"

def severity (e : Event) : Value := e.members.member "severity"

/-- The event as a document holds it. -/
def stored (e : Event) : Event := ⟨e.members.stored⟩

end Event

structure Agent where
  id : Value
  fields : Record Value
  others : Record Value

structure World where
  agents : Record Agent
  environment : Record Value
  metrics : Record Value
  /-- The number of the next tick; a whole number in every world that a history
  accepts. -/
  timeStep : Value
  /-- The most recent event of each type. One under `__proto__` is what all other names fall
  back on. -/
  events : Record Event
  others : Record Value

instance : Inhabited World := ⟨⟨∅, ∅, ∅, 0, ∅, ∅⟩⟩

/-- The time step as a number. -/
def World.time (w : World) : Number := w.timeStep.number?.getD .notANumber

def Agent.stored (a : Agent) : Agent :=
  { id := a.id.stored, fields := a.fields.stored, others := a.others.stored }

/-- The world as a document holds it: what is written to it as a number that is
not finite is absent. -/
def World.stored (w : World) : World :=
  { agents := w.agents.map Agent.stored
    environment := w.environment.stored
    metrics := w.metrics.stored
    timeStep := w.timeStep.stored
    events := w.events.map Event.stored
    others := w.others.stored }

end Harbormaster
