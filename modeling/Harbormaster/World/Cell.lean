import Harbormaster.Failure
import Harbormaster.Value.Inheritance
import Harbormaster.World.Basic

/-!
Cells of the world, addressed by paths. `read` fails on a cell that is not there,
`peek` finds it missing, and `write` and `unset` give the world with that one
cell changed. Agents are never created by a write, and events can only be read.
A name that no record holds may still be answered, by what the record falls back
on; what is found so in place of an agent or of an event has no cells.
-/

namespace Harbormaster

namespace Event

/-- The fields of an event that can be read beside its payload. -/
def fieldNames : List String := ["id", "sourceRule", "timestamp", "eventType", "severity"]

end Event

/-- A name below an event is one of its fields or else a name in its payload. -/
def Value.readEvent (event : Value) (name : String) : Except Failure Value :=
  if Event.fieldNames.contains name then .ok ((event.property? name).getD .missing)
  else
    let payload := (event.property? "payload").getD .missing
    if payload.isObject then .ok (.ofOption (payload.property? name))
    else .error (.access (.search name payload))

def Event.read (e : Event) (name : String) : Except Failure Value :=
  (Value.record e.members).readEvent name

/-- The path that a text spells. -/
def Path.require (text : String) : Except Failure Path :=
  match Path.parse? text with
  | some path => .ok path
  | none => .error (.unknownPath text (some .malformed))

namespace World

/-- What stands for the event of a type; usually the event itself. -/
def event? (w : World) (eventType : String) : Option Value :=
  let found :=
    match w.events.get? eventType, w.events.get? Record.baseName with
    | some event, _ => some (Value.record event.members)
    | none, some base => (Value.record base.members).property? eventType
    | none, none => Value.shared? eventType
  found.filter Value.counts

/-- The failure of a cell whose agent is not among those of the world. What is found under
its name otherwise has no fields. -/
def noAgent (agent : String) (fault : AccessFault) (otherwise : Failure) : Failure :=
  if (Value.shared? agent).isSome then .access fault else otherwise

def readAt (w : World) (path : Path) : Except Failure Value :=
  let unknown (fault : PathFault) := Failure.unknownPath path.render (some fault)
  match path with
  | .agentField agent field =>
    match w.agents.get? agent with
    | none => .error (noAgent agent (.search field .missing) (unknown (.noAgent agent)))
    | some a =>
      match a.fields.find? field with
      | none => .error (unknown (.noAgentField agent field))
      | some value => .ok value
  | .environmentField field =>
    match w.environment.find? field with
    | none => .error (unknown (.noEnvironmentField field))
    | some value => .ok value
  | .metric name =>
    match w.metrics.find? name with
    | none => .error (unknown (.noMetric name))
    | some value => .ok value
  | .event eventType key =>
    match w.event? eventType, key with
    | none, _ => .ok .absent
    | some _, none => .ok (.boolean true)
    | some event, some key => event.readEvent key

/-- The value of a cell that can be written, missing when it was never written. -/
def peekAt (w : World) (path : Path) : Except Failure Value :=
  match path with
  | .agentField agent field =>
    match w.agents.get? agent with
    | none => .error (noAgent agent (.reading field) (.unknownAgent agent))
    | some a => .ok (a.fields.answer field)
  | .environmentField field => .ok (w.environment.answer field)
  | .metric name => .ok (w.metrics.answer name)
  | .event .. => .error (.unknownPath path.render (some .readOnly))

/-- Writes a cell. The environment takes scalars and metrics take finite
numbers; agent fields take every value. -/
def writeAt (w : World) (path : Path) (value : Value) : Except Failure World :=
  match path with
  | .agentField agent field =>
    match w.agents.get? agent with
    | none => .error (noAgent agent (.setting field) (.unknownAgent agent))
    | some a =>
      .ok { w with agents := w.agents.set agent { a with fields := a.fields.assign field value } }
  | .environmentField field =>
    if value.isScalar then .ok { w with environment := w.environment.assign field value }
    else .error (.typeMismatch (.environmentNotScalar path.render))
  | .metric name =>
    match value with
    | .number n =>
      if n.isFinite then .ok { w with metrics := w.metrics.assign name value }
      else .error (.typeMismatch (.metricNotFinite path.render value))
    | _ => .error (.typeMismatch (.metricNotFinite path.render value))
  | .event .. => .error (.unknownPath path.render (some .readOnly))

/-- Takes a cell back to the state in which it was never written. -/
def unsetAt (w : World) (path : Path) : Except Failure World :=
  match path with
  | .agentField agent field =>
    match w.agents.get? agent with
    | none => .error (noAgent agent .removing (.unknownAgent agent))
    | some a =>
      .ok { w with agents := w.agents.set agent { a with fields := a.fields.drop field } }
  | .environmentField field => .ok { w with environment := w.environment.drop field }
  | .metric name => .ok { w with metrics := w.metrics.drop name }
  | .event .. => .error (.unknownPath path.render (some .readOnly))

def read (w : World) (path : String) : Except Failure Value :=
  (Path.require path).bind w.readAt

def peek (w : World) (path : String) : Except Failure Value :=
  (Path.require path).bind w.peekAt

def write (w : World) (path : String) (value : Value) : Except Failure World :=
  (Path.require path).bind (w.writeAt · value)

def unset (w : World) (path : String) : Except Failure World :=
  (Path.require path).bind w.unsetAt

end World

end Harbormaster
