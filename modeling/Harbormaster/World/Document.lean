import Harbormaster.World.Basic

/-!
The world as a document, with its parts in their fixed order and then whatever
else is kept of it.
-/

namespace Harbormaster

namespace Value

/-- A record with the given members. -/
def object (members : List (String × Value)) : Value := .record (.ofList members)

def ofTexts (texts : List String) : Value := .list (texts.map .text)

def ofNat (n : Nat) : Value := .number (.ofNat n)

end Value

def Event.toValue (e : Event) : Value := .record e.members

def Agent.toValue (a : Agent) : Value :=
  .object ([("id", a.id), ("fields", .record a.fields)] ++ a.others.entries)

def World.toValue (w : World) : Value :=
  .object
    ([("agents", .record (w.agents.map Agent.toValue)),
      ("environment", .record w.environment),
      ("globalMetrics", .record w.metrics),
      ("timeStep", w.timeStep),
      ("events", .record (w.events.map Event.toValue))] ++ w.others.entries)

end Harbormaster
