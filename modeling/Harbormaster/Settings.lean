import Harbormaster.Engine.Basic
import Harbormaster.Number.Reader

/-!
The settings of an engine, read from environment variables. A variable that is
empty counts as unset. Files of variables hold one `NAME=value` a line.
-/

namespace Harbormaster

/-- Environment variables by name. -/
abbrev Variables := Record String

namespace Variables

def nonempty? (v : Variables) (name : String) : Option String :=
  (v.get? name).filter (!·.isEmpty)

/-- A value without the quotes around it; unquoted values end at a number sign. -/
def plainValue (cs : List Char) : List Char :=
  match cs, cs.getLast? with
  | c :: rest, some last =>
    if (c == '"' || c == '\'') && c == last && !rest.isEmpty then rest.dropLast
    else Text.trimChars (cs.takeWhile (· ≠ '#'))
  | _, _ => cs

def isNameChar (c : Char) : Bool := c.isAlphanum || c == '_' || c == '.' || c == '-'

/-- The variable that a line sets. -/
def ofLine? (line : String) : Option (String × String) :=
  match Text.cut? '=' line with
  | some (name, value) =>
    let name := Text.trimChars name.toList
    if !name.isEmpty && name.all isNameChar then
      some (.ofList name, .ofList (plainValue (Text.trimChars value.toList)))
    else none
  | none => none

/-- The variables of a file; other lines are passed over. -/
def ofText (text : String) : Variables :=
  .ofList ((Text.split '\n' text).filterMap ofLine?)

end Variables

structure Settings where
  /-- The file of the rule set, none for the rules of the harbour. -/
  rulesFile : Option String
  maxChainDepth : Nat
  /-- Stands in for the strategy of the rule set's policy. -/
  strategy : Option Strategy
  lifetime : Lifetime
  deriving DecidableEq, Repr

namespace Settings

/-- Chain depths are whole and not negative. -/
def readDepth (text : String) : Except Failure Nat :=
  match (Number.ofText text).toInt? with
  | some (.ofNat depth) => .ok depth
  | _ => .error (.settings (.chainDepth text))

def readStrategy (text : String) : Except Failure Strategy :=
  match Strategy.ofText? text with
  | some strategy => .ok strategy
  | none => .error (.settings (.strategy text))

def readLifetime (text : String) : Except Failure Lifetime :=
  match Lifetime.ofText? text with
  | some lifetime => .ok lifetime
  | none => .error (.settings (.lifetime text))

/-- Reads a variable that may be unset. -/
def readOr {α : Type} (standard : α) (read : String → Except Failure α) :
    Option String → Except Failure α
  | some text => read text
  | none => .ok standard

def variableNames : List String :=
  ["SIM_RULES_FILE", "SIM_MAX_CHAIN_DEPTH", "SIM_CONFLICT_STRATEGY", "SIM_EVENT_LIFETIME"]

/-- The settings that variables ask for. -/
def ofVariables (v : Variables) : Except Failure Settings := do
  let maxChainDepth ←
    readOr Engine.standardChainDepth readDepth (v.nonempty? "SIM_MAX_CHAIN_DEPTH")
  let strategy ← readOr none (fun text => (readStrategy text).map some)
    (v.nonempty? "SIM_CONFLICT_STRATEGY")
  let lifetime ← readOr .tick readLifetime (v.nonempty? "SIM_EVENT_LIFETIME")
  .ok ⟨v.nonempty? "SIM_RULES_FILE", maxChainDepth, strategy, lifetime⟩

def engineOptions (s : Settings) : EngineOptions :=
  { EngineOptions.standard with
    maxChainDepth := .number (.ofNat s.maxChainDepth)
    lifetime := s.lifetime
    strategy := s.strategy }

end Settings

end Harbormaster
