import Harbormaster.Text.Units
import Harbormaster.World.Cell

/-!
Inputs: named requests from outside the engine. Each type of input has a handler
that turns its parameters into writes, looking at the world where it has to.
Further types can be registered beside the built-in ones, or in their place.
-/

namespace Harbormaster

/-- A write requested from outside the engine. -/
structure Write where
  path : String
  value : Value

structure Input where
  type : Value
  params : Value

namespace Input

/-- The parameters by name, none if they were left out. -/
def parameters (i : Input) : Record Value := i.params.members

/-- The input as a document holds it. -/
def stored (i : Input) : Input := ⟨i.type.stored, i.params.stored⟩

/-- An input that writes one cell. -/
def write (path value : Value) : Input :=
  ⟨"write", .record (.ofList [("path", path), ("value", value)])⟩

def describeParameter (name : String) (v : Value) : String :=
  name ++ "=" ++
    match v with
    | .list items => "[" ++ Value.joinItems ", " items ++ "]"
    | v => v.plainText

/-- Whether reports can name the input. -/
def isNameable (i : Input) : Bool := i.type.hasText && i.parameters.values.all Value.hasText

/-- The input as reports name it. -/
def describe (i : Input) : String :=
  i.type.plainText ++ "(" ++
    ", ".intercalate (i.parameters.entries.map fun p => describeParameter p.1 p.2) ++ ")"

end Input

abbrev Handler := Record Value → World → Except Failure (List Write)

namespace Handler

def number (input name : String) (params : Record Value) : Except Failure Number :=
  let refused := Except.error (.typeMismatch (.inputNeedsNumber input name (params.member name)))
  match params.member name with
  | .number n => if n.isFinite then .ok n else refused
  | _ => refused

/-- A text parameter; without one that says something the standard is taken. -/
def textOr (name standard : String) (params : Record Value) : String :=
  match params.member name with
  | .text s => if s.isEmpty then standard else s
  | _ => standard

/-- Writes the value of one parameter to a path. -/
def direct : Handler := fun params _ =>
  match (params.member "path").text?.filter isFieldPath, params.member "value" with
  | none, _ => .error (.typeMismatch (.inputNeedsPath (params.member "path")))
  | some path, .missing => .error (.typeMismatch (.inputNeedsValue path))
  | some path, value => .ok [⟨path, value⟩]

/-- Sets a numeric field of an agent, of the tugboat unless another is named. -/
def agentNumber (input name field : String) : Handler := fun params _ =>
  (number input name params).map fun n =>
    [⟨"agents." ++ textOr "agent" "tugboat" params ++ "." ++ field, .number n⟩]

def docking : Handler := fun _ _ =>
  .ok [⟨"environment.zone", .text "docking_zone"⟩,
    ⟨"environment.docking_mode", .boolean true⟩]

/-- Sets a metric from a distance sensor. -/
def distance : Handler := fun params _ =>
  (number "sensor_update_distance" "distance" params).map fun n =>
    [⟨"global_metrics." ++ textOr "metric" "tugboat_cargo_distance" params, .number n⟩]

/-- Sets the speed of every agent to zero, in the order of their names. -/
def emergencyStop : Handler := fun _ w =>
  .ok ((Text.sort w.agents.keys).map fun id => ⟨"agents." ++ id ++ ".speed", 0⟩)

end Handler

/-- The handlers by input type; the first one of a type counts. -/
structure Translator where
  handlers : List (String × Handler)

namespace Translator

def builtIn : Translator :=
  ⟨[("write", Handler.direct),
    ("adjust_speed", Handler.agentNumber "adjust_speed" "speed" "speed"),
    ("change_angle", Handler.agentNumber "change_angle" "heading" "heading"),
    ("activate_docking_mode", Handler.docking),
    ("sensor_update_distance", Handler.distance),
    ("emergency_stop", Handler.emergencyStop)]⟩

/-- Adds the handler of a type, in place of the one it had. -/
def register (t : Translator) (type : String) (handler : Handler) : Translator :=
  ⟨(type, handler) :: t.handlers.filter (·.1 ≠ type)⟩

def handler? (t : Translator) (type : String) : Option Handler := t.handlers.lookup type

def types (t : Translator) : List String := Text.sort (t.handlers.map (·.1))

/-- The writes that an input asks for. -/
def translate (t : Translator) (input : Input) (w : World) : Except Failure (List Write) :=
  match input.type.text?.bind t.handler? with
  | some handler => handler input.parameters w
  | none => .error (.input (.unknownType input.type t.types))

end Translator

end Harbormaster
