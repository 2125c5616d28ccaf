import Harbormaster.Engine.Basic
import Harbormaster.Report.History
import Harbormaster.Report.Lines
import Harbormaster.Scenario

/-!
Runs: a scenario for a number of ticks, reported tick by tick, with the history
saved at the end if that is asked for. How a document is saved is left to the
caller.
-/

namespace Harbormaster

structure Run where
  /-- The name of the scenario as it was asked for. -/
  scenario : Value
  /-- The number of ticks as it was asked for. -/
  ticks : Value
  /-- Inputs handed in before the first tick. -/
  inputs : List Input
  /-- The directory in which the history is saved, if it is. -/
  directory : Option String
  /-- Whether the saved explanations are those for visitors. -/
  educational : Bool
  /-- Whether rules that do not fire are reported too. -/
  verbose : Bool

namespace Run

/-- The file in which a history is saved. -/
def historyFile : String := "simulation_history.json"

def tickCount (v : Value) : Except Failure Nat :=
  match v.number?.bind Number.toInt? with
  | some (.ofNat (n + 1)) => .ok (n + 1)
  | _ => .error (.run (.tickCount v))

/-- Runs ticks and reports each of them. -/
def ticksFrom (verbose : Bool) : Nat → Engine → Except Failure (List Snapshot) × List Notice
  | 0, _ => (.ok [], [])
  | count + 1, engine =>
    let first := engine.tick
    match first.snapshot with
    | .error failure => (.error failure, first.notices)
    | .ok snapshot =>
      let (rest, notices) := ticksFrom verbose count first.engine
      (rest.map (snapshot :: ·),
        first.notices ++ (snapshot.lines verbose).map Notice.plain ++ notices)

/-- Performs a run, with its report as notices. -/
def perform (r : Run) (rules : RuleSet) (options : EngineOptions) :
    Except Failure (List Snapshot) × List Notice :=
  match Scenario.ofValue? r.scenario with
  | none => (.error (.run (.unknownScenario r.scenario Scenario.names)), [])
  | some scenario =>
    match tickCount r.ticks with
    | .error failure => (.error failure, [])
    | .ok count =>
      let opening := Notice.debug ("Running scenario \"" ++ r.scenario.plainText ++ "\" for " ++
        r.ticks.plainText ++ " tick(s).")
      match Engine.new scenario.world rules options with
      | .error failure => (.error failure, [opening])
      | .ok (engine, notice) =>
        let (result, notices) := ticksFrom r.verbose count (r.inputs.foldl Engine.submit engine)
        (result, opening :: notice :: notices)

/-- The history that a run saves, and the directory for it. -/
def saving? (r : Run) (snapshots : List Snapshot) : Option (String × String) :=
  (r.directory.filter (!·.isEmpty)).map fun directory =>
    (historyDocument r.scenario snapshots r.educational, directory)

def unsavedNotice (failure : Failure) : Notice :=
  .error ("Failed to save simulation history: " ++ failure.line)

/-- Performs a run and saves its history; `save` takes a document and the
directory for it. -/
def execute {m : Type → Type} [Monad m] (say : Notice → m Unit)
    (save : String → String → m (Except Failure Unit))
    (r : Run) (rules : RuleSet) (options : EngineOptions) :
    m (Except Failure (List Snapshot)) := do
  let (result, notices) := r.perform rules options
  notices.forM say
  match result with
  | .error failure => return .error failure
  | .ok snapshots =>
    match r.saving? snapshots with
    | none => return .ok snapshots
    | some (document, directory) =>
      match ← save document directory with
      | .ok () => return .ok snapshots
      | .error failure =>
        say (unsavedNotice failure)
        return .error failure

end Run

end Harbormaster
