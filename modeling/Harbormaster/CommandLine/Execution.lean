import Harbormaster.CommandLine.Host
import Harbormaster.CommandLine.Request
import Harbormaster.Input.Spec
import Harbormaster.Rule.File
import Harbormaster.Rule.Summary
import Harbormaster.Run
import Harbormaster.Shell.Basic

/-!
Execution of a command line on a host. A command that fails is reported with its
name, and the exit code tells the commands apart.
-/

namespace Harbormaster.CommandLine

/-- How a command line ends: with an exit code, or with a shell to be served. -/
inductive Ending where
  | exit (code : Nat)
  | serve (shell : Shell)

def Ending.exitCode : Ending → Nat
  | exit code => code
  | serve _ => 0

def version : String := "1.0.0"

def usage : List String :=
  ["Usage: harbormaster [options] <command>",
    "",
    "Options:",
    "  -r, --rules <path>              the rule set, a JSON file",
    "  --max-chain-depth <n>           the deepest chain of triggered rules in a tick",
    "  --conflict-strategy <strategy>  PRIORITY, LAST_WRITE_WINS, MERGE or MANUAL_REVIEW",
    "  --event-lifetime <lifetime>     tick or persistent",
    "  -V, --version                   print the version",
    "  -h, --help                      print this text",
    "",
    "Commands:",
    "  run     run a scenario: -s <name>, -t <n>, -i <input>, -o <directory>,",
    "          --educational, -v",
    "  rules   check the rule set and list its rules",
    "  shell   step through a scenario: -s <name>"]

/-- What a failing command is called in its report, and its exit code. -/
def failureMark : Command → String × Nat
  | .run _ => ("Run command", 2)
  | .rules => ("Rules command", 3)
  | .shell _ => ("Shell", 1)

namespace Host

variable {m : Type → Type} [Monad m]

/-- The file of the rule set that the settings ask for. -/
def rulesPath (host : Host m) (settings : Settings) : String :=
  match settings.rulesFile with
  | some path => resolvePath host.directory path
  | none => host.standardRules

def loadRules (host : Host m) (settings : Settings) : m (Except Failure RuleSet) := do
  let path := host.rulesPath settings
  let contents ← host.fetch path
  let (result, _, notices) := (RuleFile.new path).load contents
  notices.forM host.say
  return result

def saveHistory (host : Host m) (document directory : String) : m (Except Failure Unit) :=
  host.save (resolvePath host.directory (directory ++ "/" ++ Run.historyFile)) document

/-- The run that flags ask for. -/
def runOf (flags : RunFlags) : Except Failure Run := do
  let inputs ← flags.inputs.mapM Input.ofSpec
  .ok
    { scenario := flags.scenario
      ticks := .number (Number.ofText flags.ticks)
      inputs
      directory := flags.directory
      educational := flags.educational
      verbose := flags.verbose }

def runScenario (host : Host m) (flags : RunFlags) (settings : Settings) :
    m (Except Failure Ending) := do
  match ← host.loadRules settings with
  | .error failure => return .error failure
  | .ok rules =>
    match runOf flags with
    | .error failure => return .error failure
    | .ok run =>
      match ← run.execute host.say host.saveHistory rules settings.engineOptions with
      | .error failure => return .error failure
      | .ok _ =>
        host.say (.debug "Run command finished successfully.")
        return .ok (.exit 0)

def listRules (host : Host m) (settings : Settings) : m (Except Failure Ending) := do
  host.say (.plain ("Rules file: " ++ host.rulesPath settings))
  match ← host.loadRules settings with
  | .error failure => return .error failure
  | .ok rules =>
    (RuleSummary.overview rules.summaries).forM fun line => host.say (.plain line)
    return .ok (.exit 0)

/-- The identifiers of the sessions of a shell. -/
def sessionName (n : Nat) : String := "session-" ++ (n + 1).repr

def openShell (host : Host m) (scenario : String) (settings : Settings) :
    m (Except Failure Ending) := do
  match ← host.loadRules settings with
  | .error failure => return .error failure
  | .ok rules =>
    let sessions := Sessions.new rules settings.engineOptions sessionName
    let (result, _, notices) := Shell.start sessions scenario
    notices.forM host.say
    return result.map .serve

def performCommand (host : Host m) (settings : Settings) : Command → m (Except Failure Ending)
  | .run flags => host.runScenario flags settings
  | .rules => host.listRules settings
  | .shell scenario => host.openShell scenario settings

/-- Performs a command in an environment with the overrides. -/
def perform (host : Host m) (environment : Variables) (command : Command)
    (overrides : List (String × String)) : m Ending := do
  let environment := overrides.foldl (fun v o => v.set o.1 o.2) environment
  let result ← match Settings.ofVariables environment with
    | .error failure => pure (.error failure)
    | .ok settings => host.performCommand settings command
  match result with
  | .ok ending => return ending
  | .error failure =>
    let (name, code) := failureMark command
    host.say (.error (name ++ " failed: " ++ failure.line))
    return .exit code

/-- Executes a command line. -/
def execute (host : Host m) (environment : Variables) : Request → m Ending
  | .perform command overrides => host.perform environment command overrides
  | .version => do
    host.say (.plain version)
    return .exit 0
  | .help => do
    usage.forM fun line => host.say (.plain line)
    return .exit 0
  | .mistaken => do
    usage.forM fun line => host.say (.error line)
    return .exit 1

end Host

end Harbormaster.CommandLine
