import Harbormaster.Report.Visitors

/-!
The saved history of a run: its scenario and its snapshots as one JSON document,
with the explanations in full or in the view for visitors.
-/

namespace Harbormaster

namespace Report

/-- The text of a history of documents. -/
def history (scenario : Value) (snapshots : List Value) (educational : Bool) : String :=
  Json.printIndented <| .object
    [("scenario", scenario),
      ("ticks", .ofNat snapshots.length),
      ("history", .list (if educational then snapshots.map snapshotForVisitors else snapshots))]

end Report

/-- The document that is saved for a run. -/
def historyDocument (scenario : Value) (snapshots : List Snapshot) (educational : Bool) :
    String :=
  Report.history scenario (snapshots.map Commit.toValue) educational

end Harbormaster
