import Harbormaster.Event.Digest
import Harbormaster.Notice
import Harbormaster.Number.Decimal
import Harbormaster.Value.Inheritance
import Harbormaster.World.Basic

/-!
The event bus: the events that conditions can see. There is one event a type,
the one spawned last. With the lifetime of a tick all of them are dropped when
the next tick begins; persistent events stay until they are consumed.
-/

namespace Harbormaster

inductive Lifetime where
  | tick | persistent
  deriving DecidableEq, Repr

namespace Lifetime

def text : Lifetime → String
  | tick => "tick"
  | persistent => "persistent"

def ofText? (s : String) : Option Lifetime := [tick, persistent].find? (·.text = s)

end Lifetime

structure SpawnRequest where
  eventType : Value
  sourceRule : Value
  payload : Record Value
  /-- The severity, `normal` unless it is given. -/
  severity : Value

structure EventBus where
  lifetime : Lifetime
  /-- The visible events by type. -/
  events : Record Event
  /-- The events spawned since the tick began, in order. -/
  spawned : List Event
  tick : Value

namespace EventBus

def new (lifetime : Lifetime) : EventBus := ⟨lifetime, ∅, [], 0⟩

/-- The namespace of event identifiers. -/
def scope : List UInt8 :=
  [0x6f, 0x1c, 0x2a, 0x3e, 0x8d, 0x4b, 0x5c, 0x7a, 0x9e, 0x10, 0x2b, 0x3c, 0x4d, 0x5e, 0x6f, 0x70]

/-- The name from which an event gets its identifier: the tick, the number of
events spawned before it in the tick, the rule and the type. -/
def eventName (tick : Value) (sequence : Nat) (rule eventType : Value) : String :=
  tick.plainText ++ ":" ++ sequence.repr ++ ":" ++ rule.plainText ++ ":" ++ eventType.plainText

/-- Starts a tick. -/
def beginTick (b : EventBus) (tick : Value) : EventBus × List Notice :=
  let b := { b with tick, spawned := [] }
  if b.lifetime = .tick ∧ 0 < b.events.size then
    ({ b with events := ∅ },
      [.debug ("EventBus: Clearing " ++ b.events.size.repr ++
        " event(s) from the previous tick.")])
  else (b, [])

/-- The event that a request makes now. -/
def eventOf (b : EventBus) (request : SpawnRequest) : Event :=
  let name := eventName b.tick b.spawned.length request.sourceRule request.eventType
  ⟨.ofList
    [("id", .text (Digest.identifier scope name)),
      ("sourceRule", request.sourceRule),
      ("timestamp", b.tick),
      ("eventType", request.eventType),
      ("payload", .record request.payload),
      ("severity", request.severity.given?.getD Event.standardSeverity)]⟩

/-- Spawns an event; it is visible at once and replaces the one of its type. -/
def spawn (b : EventBus) (request : SpawnRequest) : Event × EventBus × Notice :=
  let event := b.eventOf request
  (event,
    { b with
      events := b.events.set event.eventType.plainText event
      spawned := b.spawned ++ [event] },
    .debug ("EventBus: Rule \"" ++ event.sourceRule.plainText ++ "\" spawned event \"" ++
      event.eventType.plainText ++ "\" (" ++ event.severity.plainText ++ ")."))

/-- Removes an event before its time; tells whether it was there. -/
def consume (b : EventBus) (eventType : String) : Bool × EventBus :=
  (b.events.contains eventType, { b with events := b.events.erase eventType })

/-- Replaces the visible events. -/
def load (b : EventBus) (events : Record Event) : EventBus := { b with events }

/-- The events that a document of the world lists. -/
def listed (b : EventBus) : Record Event := b.events.erase Record.baseName

end EventBus

end Harbormaster
