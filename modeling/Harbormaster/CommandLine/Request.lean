import Harbormaster.CommandLine.Flags
import Harbormaster.Settings

/-!
What a command line asks for: one of the three commands with its flags, the
version, help, or nothing that makes sense. The flags of the whole program may
stand anywhere; those of a command follow its name.
-/

namespace Harbormaster.CommandLine

/-- The flags of the `run` command. -/
structure RunFlags where
  scenario : String
  ticks : String
  /-- The inputs as they were typed. -/
  inputs : List String
  directory : Option String
  educational : Bool
  verbose : Bool
  deriving DecidableEq, Repr

inductive Command where
  | run (flags : RunFlags)
  | rules
  | shell (scenario : String)
  deriving DecidableEq, Repr

inductive Request where
  /-- A command, with the variables that flags stand in for. -/
  | perform (command : Command) (overrides : List (String × String))
  | version
  | help
  | mistaken
  deriving DecidableEq, Repr

/-- The flags that stand for a variable, each with its variable. -/
def settingFlags : List (Flag × String) :=
  [(⟨"rules", some 'r', true⟩, "SIM_RULES_FILE"),
    (⟨"max-chain-depth", none, true⟩, "SIM_MAX_CHAIN_DEPTH"),
    (⟨"conflict-strategy", none, true⟩, "SIM_CONFLICT_STRATEGY"),
    (⟨"event-lifetime", none, true⟩, "SIM_EVENT_LIFETIME")]

def programFlags : List Flag := ⟨"version", some 'V', false⟩ :: settingFlags.map (·.1)

def scenarioFlag : Flag := ⟨"scenario", some 's', true⟩

def runFlags : List Flag :=
  [scenarioFlag, ⟨"ticks", some 't', true⟩, ⟨"input", some 'i', true⟩,
    ⟨"output", some 'o', true⟩, ⟨"educational", none, false⟩, ⟨"verbose", some 'v', false⟩]

def standardScenario : String := "default"

def standardTicks : String := "5"

/-- The variables that a scan gives a value; an empty value gives none. -/
def overrides (s : Scan) : List (String × String) :=
  settingFlags.filterMap fun (flag, name) =>
    ((s.last? flag.name).filter (!·.isEmpty)).map fun value => (name, value)

/-- Whether help is asked for among the words that no scan knows. -/
def asksHelp (words : List String) : Bool := words.contains "-h" || words.contains "--help"

/-- The command of a scan over the words that follow its name; no word may be
left unknown. -/
def settle (s : Scan) (overrides : List (String × String)) (command : Command) : Request :=
  if s.valueMissing then .mistaken
  else if asksHelp s.unknown then .help
  else if s.unknown.isEmpty then .perform command overrides
  else .mistaken

def runCommand (s : Scan) : Command :=
  .run
    { scenario := (s.last? "scenario").getD standardScenario
      ticks := (s.last? "ticks").getD standardTicks
      inputs := s.values "input"
      directory := s.last? "output"
      educational := s.has "educational"
      verbose := s.has "verbose" }

/-- The request for a named command with the words that the program's own scan
does not know. -/
def ofCommand (name : String) (words : List String) (overrides : List (String × String)) :
    Option Request :=
  match name with
  | "run" => let s := scan runFlags words; some (settle s overrides (runCommand s))
  | "rules" => some (settle (scan [] words) overrides .rules)
  | "shell" =>
    let s := scan [scenarioFlag] words
    some (settle s overrides (.shell ((s.last? "scenario").getD standardScenario)))
  | _ => none

def commandNames : List String := ["run", "rules", "shell"]

/-- What a command line asks for; `words` are those after the program's name. -/
def Request.ofWords (words : List String) : Request :=
  let s := scan programFlags words
  if words.isEmpty then .help
  else if s.has "version" then .version
  else if s.valueMissing then .mistaken
  else match s.operands with
    | [] => if asksHelp s.unknown then .help else .mistaken
    | ["help"] => .help
    | "help" :: name :: _ => if commandNames.contains name then .help else .mistaken
    | name :: _ =>
      match ofCommand name s.unknown (overrides s) with
      | some request => request
      | none => if asksHelp s.unknown then .help else .mistaken

end Harbormaster.CommandLine
