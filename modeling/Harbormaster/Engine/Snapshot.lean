import Harbormaster.Explanation.Stored
import Harbormaster.History.Store

/-!
The report of a tick: everything that a tick leaves behind besides the world.
-/

namespace Harbormaster

/-- A chain of triggered rules that got too deep. -/
structure ChainOverflow where
  ruleId : String
  triggeredBy : String
  depth : Number
  limit : Number
  /-- The rules from the start of the chain to the one that was too deep. -/
  chain : List String
  deriving DecidableEq

structure InputFailure where
  input : String
  failure : String
  deriving DecidableEq, Repr

/-- How much happened in a tick. -/
structure TickStats where
  rulesEvaluated : Number
  rulesTriggered : Number
  actionsApplied : Number
  actionsFailed : Number
  conflicts : Number
  eventsSpawned : Number
  deriving DecidableEq

structure TickReport where
  explanations : List Explanation
  conflicts : List ConflictRecord
  inputsApplied : List String
  inputFailures : List InputFailure
  chainOverflow : Option ChainOverflow
  stats : TickStats

def TickReport.stored (r : TickReport) : TickReport :=
  { r with
    explanations := r.explanations.map Explanation.stored
    conflicts := r.conflicts.map ConflictRecord.stored }

instance : Storable TickReport := ⟨TickReport.stored⟩

/-- A committed tick of an engine. -/
abbrev Snapshot := Commit TickReport

end Harbormaster
