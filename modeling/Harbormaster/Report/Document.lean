import Harbormaster.Engine.Snapshot
import Harbormaster.Explanation.Document

/-!
Committed ticks as documents. The reports are drawn from these documents, so a
saved tick is reported like one that has just been committed.
-/

namespace Harbormaster

def ChainOverflow.toValue (o : ChainOverflow) : Value :=
  .object
    [("ruleId", .text o.ruleId),
      ("triggeredBy", .text o.triggeredBy),
      ("depth", .number o.depth),
      ("maxDepth", .number o.limit),
      ("chain", .ofTexts o.chain)]

def InputFailure.toValue (f : InputFailure) : Value :=
  .object [("input", .text f.input), ("error", .text f.failure)]

def TickStats.toValue (s : TickStats) : Value :=
  .object
    [("rulesEvaluated", .number s.rulesEvaluated),
      ("rulesTriggered", .number s.rulesTriggered),
      ("actionsApplied", .number s.actionsApplied),
      ("actionsFailed", .number s.actionsFailed),
      ("conflicts", .number s.conflicts),
      ("eventsSpawned", .number s.eventsSpawned)]

def Commit.toValue (s : Snapshot) : Value :=
  .object
    [("tick", .number s.tick),
      ("explanations", .list (s.record.explanations.map Explanation.toValue)),
      ("conflicts", .list (s.record.conflicts.map ConflictRecord.toValue)),
      ("inputsApplied", .ofTexts s.record.inputsApplied),
      ("inputFailures", .list (s.record.inputFailures.map InputFailure.toValue)),
      ("chainOverflow", .ofOption (s.record.chainOverflow.map ChainOverflow.toValue)),
      ("stats", s.record.stats.toValue),
      ("state", s.state.toValue)]

end Harbormaster
