import Harbormaster.Event.Bus
import Harbormaster.Explanation.Basic

/-!
Deeds: what an action amounts to in the world as it is now. Everything that can
be wrong with an action by itself comes out while its deed is drawn up, before
anything is changed.
-/

namespace Harbormaster

inductive Deed where
  /-- A write to a cell, with the message of the application. -/
  | write (target : String) (value : Value) (range : Option ClampRange)
      (before : Value) (message : String)
  | recommend (target : String) (value current : Value)
  | trigger (rule : String)
  | spawn (request : SpawnRequest)
  | log (entry : LogEntry)

namespace Action

/-- A parameter that has to be there and must not be empty. -/
def require (a : Action) (name : String) : Except Failure Value :=
  let refused := Except.error (.invalidAction (.missingParameter a.kind name))
  match a.parameter name with
  | .missing | .absent | .text "" => refused
  | v => .ok v

def requireText (a : Action) (name : String) : Except Failure String :=
  (a.require name).map Value.plainText

/-- The value to write; an empty text is one. -/
def requireValue (a : Action) : Except Failure Value :=
  match a.value with
  | .missing | .absent => .error (.invalidAction (.missingParameter a.kind "value"))
  | v => .ok v

/-- A number that is needed for an action. -/
def requireNumber (what : Quantity) (v : Value) : Except Failure Number :=
  match v with
  | .number n => if n.isNaN then .error (.typeMismatch (.notNumeric what v)) else .ok n
  | _ => .error (.typeMismatch (.notNumeric what v))

end Action

/-- The value of a cell now, absent when it was never written. -/
def World.current (w : World) (target : String) : Except Failure Value :=
  (w.peek target).map Value.marked

namespace Deed

def ofSet (a : Action) (w : World) : Except Failure Deed := do
  let target ← a.requireText "target"
  let raw ← a.requireValue
  let before ← w.current target
  let value ← w.resolve raw
  if value.isAbsent then .error (.invalidAction (.absentValue target))
  else .ok (.write target value none before
    ("SET " ++ target ++ ": " ++ before.trace ++ " -> " ++ value.trace))

/-- A cell that was never written counts as zero. -/
def ofAdd (a : Action) (w : World) : Except Failure Deed := do
  let target ← a.requireText "target"
  let raw ← a.requireValue
  let before ← w.current target
  let resolved ← w.resolve raw
  let addend ← Action.requireNumber (.addend target) resolved
  let base ← if before.isAbsent then .ok 0 else Action.requireNumber (.current target) before
  let sum := base + addend
  .ok (.write target (.number sum) none before
    ("ADD " ++ addend.toText ++ " to " ++ target ++ ": " ++ before.trace ++ " -> " ++ sum.toText))

def ofClamp (a : Action) (w : World) : Except Failure Deed := do
  let target ← a.requireText "target"
  let lowRaw ← a.require "minValue"
  let lowValue ← w.resolve lowRaw
  let low ← Action.requireNumber (.lowerBound target) lowValue
  let highRaw ← a.require "maxValue"
  let highValue ← w.resolve highRaw
  let high ← Action.requireNumber (.upperBound target) highValue
  if high.lt low then .error (.invalidAction (.boundsReversed target low high))
  else
    let before ← w.current target
    let held ← Action.requireNumber (.current target) before
    let range : ClampRange := ⟨low, high⟩
    let value := range.clamp held
    .ok (.write target (.number value) (some range) before
      ("CLAMP " ++ target ++ ": " ++ before.trace ++ " -> " ++ value.toText ++
        " (min=" ++ low.toText ++ ", max=" ++ high.toText ++ ")"))

def ofRecommend (a : Action) (w : World) : Except Failure Deed := do
  let target ← a.requireText "target"
  let raw ← a.requireValue
  let current ← w.current target
  let value ← w.resolve raw
  .ok (.recommend target value current)

def ofTrigger (known : String → Bool) (a : Action) : Except Failure Deed := do
  let rule ← a.require "ruleId"
  match rule.text?.filter known with
  | some rule => .ok (.trigger rule)
  | none => .error (.invalidAction (.unknownRule rule.plainText))

/-- The payload of an event now; entries without a value are left out, and so is one that
only tells what to fall back on. -/
def payload (w : World) : Record Value → List (String × Value) → Except Failure (Record Value)
  | done, [] => .ok done
  | done, (name, raw) :: rest =>
    match w.resolve raw with
    | .error failure => .error failure
    | .ok .absent => payload w done rest
    | .ok value => payload w (if name = Record.baseName then done else done.set name value) rest

def ofSpawn (rule : Rule) (a : Action) (w : World) : Except Failure Deed := do
  let eventType ← a.require "eventType"
  let payload ← payload w ∅ a.eventPayload.members.entries
  .ok (.spawn ⟨eventType, rule.id, payload, a.eventSeverity⟩)

/-- The level of a log action, `info` unless it says otherwise. -/
def levelOf (a : Action) : Except Failure LogLevel :=
  match a.logLevel with
  | .missing | .absent => .ok .info
  | v =>
    match v.text?.bind LogLevel.ofText? with
    | some level => .ok level
    | none => .error (.invalidAction (.unknownLogLevel v))

def ofLog (a : Action) (w : World) : Except Failure Deed := do
  let message ← a.require "logMessage"
  let level ← levelOf a
  if a.target.counts then
    let value ← w.read a.target.plainText
    .ok (.log ⟨level.text, message, a.target, value⟩)
  else .ok (.log ⟨level.text, message, .missing, .missing⟩)

/-- What an action of a rule amounts to; `known` tells the rules of the set. -/
def ofAction (known : String → Bool) (rule : Rule) (a : Action) (w : World) :
    Except Failure Deed :=
  match a.kind with
  | .set => ofSet a w
  | .add => ofAdd a w
  | .clamp => ofClamp a w
  | .recommend => ofRecommend a w
  | .triggerRule => ofTrigger known a
  | .spawnEvent => ofSpawn rule a w
  | .log => ofLog a w

end Deed

end Harbormaster
