import Harbormaster.Value.Written

/-!
Rules: conditions over the world, the actions taken when they hold, and the
policy by which competing writes are settled. Conditions and actions keep their
members as they were written, so that an explanation can quote them, and so do
rules with their priority and their logic.
-/

namespace Harbormaster

inductive Operator where
  | less | greater | lessEqual | greaterEqual | equal | unequal | isIn
  deriving DecidableEq, Repr

namespace Operator

def text : Operator → String
  | less => "<"
  | greater => ">"
  | lessEqual => "<="
  | greaterEqual => ">="
  | equal => "=="
  | unequal => "!="
  | isIn => "in"

def all : List Operator := [less, greater, lessEqual, greaterEqual, equal, unequal, isIn]

def ofText? (s : String) : Option Operator := all.find? (·.text = s)

def ofValue? (v : Value) : Option Operator := v.text?.bind ofText?

end Operator

/-- Whether all conditions of a rule have to hold or one of them is enough. -/
inductive Logic where
  | all | any
  deriving DecidableEq, Repr

namespace Logic

def text : Logic → String
  | all => "AND"
  | any => "OR"

def ofText? (s : String) : Option Logic := [all, any].find? (·.text = s)

/-- The logic that a rule is written with; whatever does not ask for all
conditions is content with one. -/
def ofValue (v : Value) : Logic :=
  match v with
  | .text s => if s = all.text then all else any
  | _ => any

end Logic

inductive ActionKind where
  | set | add | clamp | recommend | triggerRule | spawnEvent | log
  deriving DecidableEq, Repr

namespace ActionKind

def text : ActionKind → String
  | set => "SET"
  | add => "ADD"
  | clamp => "CLAMP"
  | recommend => "RECOMMEND"
  | triggerRule => "TRIGGER_RULE"
  | spawnEvent => "SPAWN_EVENT"
  | log => "LOG"

def every : List ActionKind := [set, add, clamp, recommend, triggerRule, spawnEvent, log]

def ofText? (s : String) : Option ActionKind := every.find? (·.text = s)

/-- The kinds that change a cell of the world. -/
def isMutating : ActionKind → Bool
  | set | add | clamp => true
  | _ => false

end ActionKind

/-- How a conflict between two rules over one cell is settled. -/
inductive Strategy where
  | priority | lastWriteWins | merge | manualReview
  deriving DecidableEq, Repr

namespace Strategy

def text : Strategy → String
  | priority => "PRIORITY"
  | lastWriteWins => "LAST_WRITE_WINS"
  | merge => "MERGE"
  | manualReview => "MANUAL_REVIEW"

def every : List Strategy := [priority, lastWriteWins, merge, manualReview]

def ofText? (s : String) : Option Strategy := every.find? (·.text = s)

def ofValue? (v : Value) : Option Strategy := v.text?.bind ofText?

end Strategy

inductive LogLevel where
  | debug | info | warning | error
  deriving DecidableEq, Repr

namespace LogLevel

def text : LogLevel → String
  | debug => "debug"
  | info => "info"
  | warning => "warning"
  | error => "error"

def every : List LogLevel := [debug, info, warning, error]

def ofText? (s : String) : Option LogLevel := every.find? (·.text = s)

end LogLevel

/-- A condition: its operator, if it is one that conditions have, and its members
as they were written. -/
structure Condition where
  operator : Option Operator
  members : Record Value

namespace Condition

/-- The condition that says no more than its sides and its operator. -/
def between (left : Value) (operator : Operator) (right : Value) : Condition :=
  ⟨some operator, .ofList [("left", left), ("operator", .text operator.text), ("right", right)]⟩

/-- The condition that a document spells. -/
def ofMembers (members : Record Value) : Condition :=
  ⟨Operator.ofValue? (members.member "operator"), members⟩

/-- Either side is a field path, an expression in double braces or a literal. -/
def left (c : Condition) : Value := c.members.member "left"

def right (c : Condition) : Value := c.members.member "right"

end Condition

/-- An action: its kind and its members as they were written. -/
structure Action where
  kind : ActionKind
  members : Record Value

namespace Action

def parameter (a : Action) (name : String) : Value := a.members.member name

def target (a : Action) : Value := a.parameter "target"
def value (a : Action) : Value := a.parameter "value"
def minValue (a : Action) : Value := a.parameter "minValue"
def maxValue (a : Action) : Value := a.parameter "maxValue"
def ruleId (a : Action) : Value := a.parameter "ruleId"
def eventType (a : Action) : Value := a.parameter "eventType"
def eventPayload (a : Action) : Value := a.parameter "eventPayload"
def eventSeverity (a : Action) : Value := a.parameter "eventSeverity"
def logLevel (a : Action) : Value := a.parameter "logLevel"
def logMessage (a : Action) : Value := a.parameter "logMessage"

end Action

/-- The conflict strategy that a rule's or an action's metadata asks for. -/
def Record.strategy? (metadata : Record Value) : Option Strategy :=
  Strategy.ofValue? (metadata.member "conflictStrategy")

def Action.strategy? (a : Action) : Option Strategy :=
  (a.parameter "metadata").record?.bind (·.strategy?)

structure Rule where
  id : String
  priority : Value
  conditions : List Condition
  logic : Value
  actions : List Action
  /-- The message of a rule that fires; without one there is a plain summary. -/
  template : String
  metadata : Record Value

/-- The number by which a rule ranks. -/
def Rule.rank (r : Rule) : Number := r.priority.asNumber

/-- Whether all conditions of the rule have to hold or one of them is enough. -/
def Rule.junction (r : Rule) : Logic := .ofValue r.logic

/-- The policy of a rule set, for conflicts in which neither the action nor the
rule names a strategy. -/
structure Policy where
  strategy : Strategy
  /-- Rules whose conflicts always wait for manual review. -/
  manualReviewRules : List String
  /-- Conflicts between rules that are all listed here are merged. -/
  mergeRules : List String

def Policy.standard : Policy := ⟨.priority, [], []⟩

structure RuleSet where
  rules : List Rule
  policy : Policy

end Harbormaster
