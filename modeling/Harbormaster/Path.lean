import Harbormaster.Text.Blank

/-!
Field paths. A path names one cell of the world by a container and the words
below it, separated by dots. `Path.parse?` and `Path.render` pass between a
path and its text.
-/

namespace Harbormaster

inductive Path where
  | agentField (agent field : String)
  | environmentField (field : String)
  | metric (name : String)
  /-- An event type, and a field of the event or a name in its payload. -/
  | event (eventType : String) (key : Option String)
  deriving DecidableEq, Repr

namespace Path

/-- Words are made of ASCII letters, digits, underscores and hyphens. -/
def isWordChar (c : Char) : Bool := c.isAlphanum || c == '_' || c == '-'

def isWord (cs : List Char) : Bool := !cs.isEmpty && cs.all isWordChar

def containers : List String := ["agents", "environment", "global_metrics", "events"]

/-- The path that a list of words spells. -/
def ofWords? : List String → Option Path
  | ["agents", agent, field] => some (.agentField agent field)
  | ["environment", field] => some (.environmentField field)
  | ["global_metrics", name] => some (.metric name)
  | ["events", eventType] => some (.event eventType none)
  | ["events", eventType, key] => some (.event eventType (some key))
  | _ => none

def words : Path → List String
  | .agentField agent field => ["agents", agent, field]
  | .environmentField field => ["environment", field]
  | .metric name => ["global_metrics", name]
  | .event eventType none => ["events", eventType]
  | .event eventType (some key) => ["events", eventType, key]

def parse? (text : String) : Option Path :=
  let segments := Text.splitChars '.' text.toList
  if segments.all isWord then ofWords? (segments.map .ofList) else none

def render (p : Path) : String := ".".intercalate p.words

end Path

/-- Whether a text is a field path; any other text is a literal. -/
def isFieldPath (text : String) : Bool := (Path.parse? text).isSome

end Harbormaster
