import Harbormaster.Json.Printer
import Harbormaster.Path
import Harbormaster.Rule.Basic
import Harbormaster.Value.Written

/-!
Failures by cause. A failure that a rule or an input raises is recorded, never
lost, so each cause keeps what its report needs; `Failure.message` is the only
place where the wording is decided.
-/

namespace Harbormaster

/-- What a failure is called in reports. -/
inductive FailureKind where
  | unknownPath | unknownAgent | typeMismatch | invalidAction | unmergeableConflict
  | ruleChainOverflow | typeError | general
  deriving DecidableEq, Repr

namespace FailureKind

def name : FailureKind → String
  | unknownPath => "UnknownPathError"
  | unknownAgent => "UnknownAgentError"
  | typeMismatch => "TypeMismatchError"
  | invalidAction => "InvalidActionError"
  | unmergeableConflict => "UnmergeableConflictError"
  | ruleChainOverflow => "RuleChainOverflowError"
  | typeError => "TypeError"
  | general => "Error"

/-- Failures of the rule language have a code of their own. -/
def code? : FailureKind → Option String
  | unknownPath => some "UNKNOWN_PATH"
  | unknownAgent => some "UNKNOWN_AGENT"
  | typeMismatch => some "TYPE_MISMATCH"
  | invalidAction => some "INVALID_ACTION"
  | unmergeableConflict => some "UNMERGEABLE_CONFLICT"
  | ruleChainOverflow => some "RULE_CHAIN_OVERFLOW"
  | typeError | general => none

end FailureKind

/-- Why a path cannot be read or written. -/
inductive PathFault where
  | malformed
  | noAgent (agent : String)
  | noAgentField (agent field : String)
  | noEnvironmentField (field : String)
  | noMetric (metric : String)
  | readOnly
  /-- A reason in the words of whoever raised the failure. -/
  | remark (text : String)

def PathFault.message : PathFault → String
  | malformed =>
    "expected one of " ++ ", ".intercalate Path.containers ++
      " followed by the right number of segments"
  | noAgent agent => "no agent '" ++ agent ++ "'"
  | noAgentField agent field => "agent '" ++ agent ++ "' has no field '" ++ field ++ "'"
  | noEnvironmentField field => "no environment field '" ++ field ++ "'"
  | noMetric metric => "no global metric '" ++ metric ++ "'"
  | readOnly => "events are read-only; use SPAWN_EVENT"
  | remark text => text

/-- What cannot be done with a value that has no members, or has no text. -/
inductive AccessFault where
  | search (name : String) (within : Value)
  | reading (name : String)
  | setting (name : String)
  | removing
  | noText

def AccessFault.message : AccessFault → String
  | search name within =>
    "Cannot use 'in' operator to search for '" ++ name ++ "' in " ++ within.plainText
  | reading name => "Cannot read properties of undefined (reading '" ++ name ++ "')"
  | setting name => "Cannot set properties of undefined (setting '" ++ name ++ "')"
  | removing => "Cannot convert undefined or null to object"
  | noText => "Cannot convert object to primitive value"

inductive Side where
  | left | right
  deriving DecidableEq, Repr

def Side.text : Side → String
  | left => "left"
  | right => "right"

/-- The numbers that an action needs. -/
inductive Quantity where
  | addend (target : String)
  | lowerBound (target : String)
  | upperBound (target : String)
  | current (target : String)

def Quantity.text : Quantity → String
  | addend target => "ADD value for " ++ target
  | lowerBound target => "CLAMP minValue for " ++ target
  | upperBound target => "CLAMP maxValue for " ++ target
  | current target => "Current value of " ++ target

inductive TypeMismatch where
  | operandNotNumeric (path : String) (found : Value)
  | comparisonNeedsNumber (operator : Operator) (side : Side) (found : Value)
  | membershipNeedsList (found : Value)
  | metricNotFinite (path : String) (written : Value)
  | environmentNotScalar (path : String)
  | notNumeric (what : Quantity) (found : Value)
  | inputNeedsNumber (input name : String) (found : Value)
  | inputNeedsPath (found : Value)
  | inputNeedsValue (path : String)

def TypeMismatch.message : TypeMismatch → String
  | operandNotNumeric path found =>
    "Expression operand '" ++ path ++ "' is not numeric (got " ++ Json.print found ++ ")"
  | comparisonNeedsNumber operator side found =>
    "Operator '" ++ operator.text ++ "' needs a number on the " ++ side.text ++
      " side, got " ++ found.trace
  | membershipNeedsList found =>
    "Operator 'in' needs a sequence on the right side, got " ++ found.trace
  | metricNotFinite path written =>
    "Global metric '" ++ path ++ "' must be a finite number, got " ++ Json.print written
  | environmentNotScalar path =>
    "Environment field '" ++ path ++ "' must be a scalar, got a sequence"
  | notNumeric what found => what.text ++ " must be numeric, got " ++ found.trace
  | inputNeedsNumber input name found =>
    "Input '" ++ input ++ "' needs numeric '" ++ name ++ "', got " ++ Json.print found
  | inputNeedsPath found =>
    "Input 'write' needs a field path, got " ++ Json.print found
  | inputNeedsValue path => "Input 'write' for " ++ path ++ " is missing 'value'"

inductive InvalidAction where
  | unexpectedCharacter (source : String) (position : Nat)
  | trailingInput (source : String)
  | divisionByZero (source : String)
  | unexpectedEnd (source : String)
  | missingParenthesis (source : String)
  | unexpectedToken (token source : String)
  | emptyExpression
  | missingParameter (kind : ActionKind) (parameter : String)
  | absentValue (target : String)
  | boundsReversed (target : String) (low high : Number)
  | unknownRule (rule : String)
  | unknownLogLevel (level : Value)

def InvalidAction.message : InvalidAction → String
  | unexpectedCharacter source position =>
    "Unexpected character in expression '" ++ source ++ "' at position " ++ position.repr
  | trailingInput source => "Unexpected trailing input in expression '" ++ source ++ "'"
  | divisionByZero source => "Division by zero in expression '" ++ source ++ "'"
  | unexpectedEnd source => "Unexpected end of expression '" ++ source ++ "'"
  | missingParenthesis source => "Missing ')' in expression '" ++ source ++ "'"
  | unexpectedToken token source =>
    "Unexpected '" ++ token ++ "' in expression '" ++ source ++ "'"
  | emptyExpression => "Empty expression"
  | missingParameter kind parameter =>
    kind.text ++ " action requires '" ++ parameter ++ "'"
  | absentValue target => "SET value for " ++ target ++ " resolved to an absent value"
  | boundsReversed target low high =>
    "CLAMP on " ++ target ++ " has minValue " ++ low.toText ++
      " greater than maxValue " ++ high.toText
  | unknownRule rule => "TRIGGER_RULE references unknown rule '" ++ rule ++ "'"
  | unknownLogLevel level => "LOG action has unknown level '" ++ level.plainText ++ "'"

/-- Why two writes cannot be merged. -/
inductive MergeFault where
  | disjointRanges (path : String)
  | incomingNotNumeric (path : String) (written : Value)
  | heldNotNumeric (path : String)
  | nothingToClamp (path : String)

def MergeFault.message : MergeFault → String
  | disjointRanges path => "Clamp ranges on '" ++ path ++ "' do not intersect"
  | incomingNotNumeric path written =>
    "Cannot merge non-numeric write " ++ Json.print written ++ " on '" ++ path ++ "'"
  | heldNotNumeric path =>
    "Cannot merge with the non-numeric write already held on '" ++ path ++ "'"
  | nothingToClamp path => "No numeric value to clamp on '" ++ path ++ "'"

/-- Why a world cannot start a history, or a tick cannot be added to one. -/
inductive StoreFault where
  | agentIdMismatch (key : String) (id : Value)
  | agentFieldNotStorable (agent field : String)
  | metricNotNumeric (metric : String)
  | invalidTimeStep (timeStep : Value)
  | unexpectedTick (expected : Number) (found : Value)

def StoreFault.message : StoreFault → String
  | agentIdMismatch key id =>
    "StateStore: Agent keyed '" ++ key ++ "' declares id '" ++ id.plainText ++ "'."
  | agentFieldNotStorable agent field =>
    "StateStore: Agent '" ++ agent ++ "' field '" ++ field ++
      "' is not a number, string, boolean or sequence."
  | metricNotNumeric metric =>
    "StateStore: Global metric '" ++ metric ++ "' must be numeric."
  | invalidTimeStep timeStep =>
    "StateStore: timeStep must be a non-negative integer, got " ++ timeStep.plainText ++ "."
  | unexpectedTick expected found =>
    "StateStore: Expected tick " ++ expected.toText ++ ", got " ++ found.plainText ++ "."

inductive EngineFault where
  | invalidChainDepth (found : Value)
  | duplicateRule (rule : String)

def EngineFault.message : EngineFault → String
  | invalidChainDepth found =>
    "DecisionEngine: maxChainDepth must be a non-negative integer, got " ++
      found.plainText ++ "."
  | duplicateRule rule => "DecisionEngine: Duplicate rule id '" ++ rule ++ "'."

inductive InputFault where
  | unknownType (input : Value) (supported : List String)
  | noType (spec : String)
  | malformedPair (spec pair : String)

def InputFault.message : InputFault → String
  | unknownType input supported =>
    "Unknown input type '" ++ input.plainText ++ "'. Supported: " ++ ", ".intercalate supported
  | noType spec => "Input '" ++ spec ++ "' has no type"
  | malformedPair spec pair =>
    "Input '" ++ spec ++ "': expected key=value, got '" ++ pair ++ "'"

inductive SettingsFault where
  | chainDepth (found : String)
  | strategy (found : String)
  | lifetime (found : String)

def SettingsFault.message : SettingsFault → String
  | chainDepth found =>
    "SIM_MAX_CHAIN_DEPTH must be a non-negative integer, got '" ++ found ++ "'"
  | strategy found =>
    "SIM_CONFLICT_STRATEGY must be one of " ++
      ", ".intercalate (Strategy.every.map Strategy.text) ++ "; got '" ++ found ++ "'"
  | lifetime found =>
    "SIM_EVENT_LIFETIME must be 'tick' or 'persistent', got '" ++ found ++ "'"

/-- Why a rule document cannot be used. -/
inductive DocumentFault where
  | noRuleList (source : String)
  | problems (source : String) (found : List String)
  | unreadable (file reason : String)
  /-- The text of a file is no JSON document. -/
  | notJson
  | missingFile (file : String)
  /-- A file whose directory is a file itself. -/
  | underFile (file : String)
  /-- A directory where a file has to be read. -/
  | directoryRead
  /-- A directory where a file has to be written. -/
  | directoryWritten (file : String)

def DocumentFault.message : DocumentFault → String
  | noRuleList source =>
    "Invalid " ++ source ++ ": expected an object with a \"rules\" list"
  | problems source found => "Invalid " ++ source ++ ":\n  " ++ "\n  ".intercalate found
  | unreadable file reason =>
    "Failed to load or parse rule file: " ++ file ++ ". Original error: " ++ reason
  | notJson => "<json error>"
  | missingFile file => "ENOENT: no such file or directory, open '" ++ file ++ "'"
  | underFile file => "ENOTDIR: not a directory, open '" ++ file ++ "'"
  | directoryRead => "EISDIR: illegal operation on a directory, read"
  | directoryWritten file => "EISDIR: illegal operation on a directory, open '" ++ file ++ "'"

inductive RunFault where
  | unknownScenario (scenario : Value) (available : List String)
  | tickCount (found : Value)
  | unknownSession (session : String)

def RunFault.message : RunFault → String
  | unknownScenario scenario available =>
    "Unknown scenario '" ++ scenario.plainText ++ "'. Available: " ++ ", ".intercalate available
  | tickCount found => "Tick count must be a positive integer, got " ++ found.plainText
  | unknownSession session => "Session not found: '" ++ session ++ "'"

inductive Failure where
  | unknownPath (path : String) (fault : Option PathFault)
  | unknownAgent (agent : String)
  | typeMismatch (cause : TypeMismatch)
  | invalidAction (cause : InvalidAction)
  | unmergeable (cause : MergeFault)
  | chainOverflow (rule : String) (depth limit : Value)
  | store (cause : StoreFault)
  | engine (cause : EngineFault)
  | input (cause : InputFault)
  | settings (cause : SettingsFault)
  | document (cause : DocumentFault)
  | run (cause : RunFault)
  | access (fault : AccessFault)
  /-- A failure raised outside this library, in its own words. -/
  | stated (kind : FailureKind) (message : String)
  /-- A bare text raised in place of a failure. -/
  | bare (text : String)

namespace Failure

def kind : Failure → FailureKind
  | unknownPath .. => .unknownPath
  | unknownAgent _ => .unknownAgent
  | typeMismatch _ => .typeMismatch
  | invalidAction _ => .invalidAction
  | unmergeable _ => .unmergeableConflict
  | chainOverflow .. => .ruleChainOverflow
  | access _ => .typeError
  | stated kind _ => kind
  | _ => .general

def message : Failure → String
  | unknownPath path fault =>
    "Unknown path '" ++ path ++ "'" ++
      match fault with
      | some fault => ": " ++ fault.message
      | none => ""
  | unknownAgent agent =>
    "Unknown agent '" ++ agent ++ "' (agents must be declared in the initial state)"
  | typeMismatch cause => cause.message
  | invalidAction cause => cause.message
  | unmergeable cause => cause.message
  | chainOverflow rule depth limit =>
    "Rule chain overflow: triggering '" ++ rule ++ "' would reach depth " ++
      depth.plainText ++ " (max " ++ limit.plainText ++ ")"
  | store cause => cause.message
  | engine cause => cause.message
  | input cause => cause.message
  | settings cause => cause.message
  | document cause => cause.message
  | run cause => cause.message
  | access fault => fault.message
  | stated _ message => message
  | bare text => text

end Failure

/-- A failure as an explanation records it. -/
structure RecordedFailure where
  name : String
  code : Option String
  message : String
  deriving DecidableEq, Repr

namespace Failure

def recorded (f : Failure) : RecordedFailure := ⟨f.kind.name, f.kind.code?, f.message⟩

/-- The failure on one line: its name and, if it has any, its message. A bare
text stands for itself. -/
def line : Failure → String
  | bare text => text
  | f => if f.message.isEmpty then f.kind.name else f.kind.name ++ ": " ++ f.message

end Failure

/-- The record on one line. -/
def RecordedFailure.line (f : RecordedFailure) : String := f.name ++ ": " ++ f.message

/-- The failure as a notice shows it: on the line of its record, even without a
message. A bare text stands for itself. -/
def Failure.shown : Failure → String
  | .bare text => text
  | f => f.recorded.line

end Harbormaster
