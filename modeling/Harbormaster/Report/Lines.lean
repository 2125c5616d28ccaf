import Harbormaster.Report.Document

/-!
A committed tick as lines of text, drawn from its document.
-/

namespace Harbormaster

namespace Report

/-- The message of a rule, if it is to be shown, and its failures. -/
def explanationLines (verbose : Bool) (e : Value) : List String :=
  (if (e.member "triggered").counts || verbose then
    ["[" ++ e.shown "ruleId" ++ "] " ++ e.shown "message"] else []) ++
    (e.items "errors").map fun f => "  ! " ++ f.shown "name" ++ ": " ++ f.shown "message"

def conflictLine (c : Value) : String :=
  "Conflict " ++ c.shown "id" ++ " on " ++ c.shown "path" ++ " [" ++
    Value.joinItems ", " (c.items "conflictingRules") ++ "]: " ++
    c.shown "resolutionStrategy" ++ " -> " ++
    ((c.member "resolutionResult").member "finalValue").trace ++
    (if (c.member "resolved").counts then "" else " (unresolved)")

def overflowLine (o : Value) : String :=
  "Chain overflow: " ++ Value.joinItems " -> " (o.items "chain") ++ " (max depth " ++
    o.shown "maxDepth" ++ ")"

def statsLine (s : Value) : String :=
  s.shown "rulesTriggered" ++ "/" ++ s.shown "rulesEvaluated" ++ " rule(s) triggered, " ++
    s.shown "actionsApplied" ++ " action(s) applied, " ++ s.shown "conflicts" ++ " conflict(s)"

/-- The lines of a tick; `verbose` shows also the rules that did not fire. -/
def lines (snapshot : Value) (verbose : Bool) : List String :=
  let inputs := snapshot.items "inputsApplied"
  let overflow := snapshot.member "chainOverflow"
  ["--- Tick " ++ snapshot.shown "tick" ++ " ---"] ++
    (if inputs.isEmpty then [] else ["Inputs: " ++ Value.joinItems ", " inputs]) ++
    (snapshot.items "inputFailures").map (fun f =>
      "Input rejected: " ++ f.shown "input" ++ ": " ++ f.shown "error") ++
    (snapshot.items "explanations").flatMap (explanationLines verbose) ++
    (snapshot.items "conflicts").map conflictLine ++
    (if overflow.counts then [overflowLine overflow] else []) ++
    [statsLine (snapshot.member "stats")]

end Report

def Commit.lines (s : Snapshot) (verbose : Bool) : List String := Report.lines s.toValue verbose

end Harbormaster
