import Harbormaster.Arrangement.Merge
import Harbormaster.Arrangement.Run

/-!
Arranging a list by an order. Runs are taken from the list one after another and
wait on a stack, the latest on top; neighbours are merged as soon as the lengths
on the stack no longer fall fast enough from the bottom to the top. Under a
consistent order the outcome is the sorted list, with equal items as they stood.
An order that contradicts itself sorts nothing, and then the outcome is settled
by these steps alone.
-/

namespace Harbormaster.Arrangement

variable {α : Type} (before : α → α → Bool)

/-- Merges two neighbours. What stands in front of the right run's first item and
behind the left run's last one is in its place already. -/
def mergeRuns (patience : Nat) (left right : List α) : List α × Nat :=
  match right with
  | [] => (left, patience)
  | first :: _ =>
    let placed := gallop (fun n => !left[n]?.any (before first)) left.length 0
    match (left.drop placed).reverse with
    | [] => (left ++ right, patience)
    | last :: former =>
      let kept := gallop (fun n => right[n]?.any (before · last)) right.length (right.length - 1)
      match right.take kept with
      | [] => (left ++ right, patience)
      | head :: others =>
        let (merged, patience) :=
          if former.length ≤ others.length then
            mergeFront before (.counting 0 0) patience [head] (left.drop placed) others
          else
            mergeBack before (.counting 0 0) patience [last] former (head :: others).reverse
        (left.take placed ++ merged ++ right.drop kept, patience)

/-- Whether a run is longer than the two above it together. -/
def towers (run above top : List α) : Bool := above.length + top.length < run.length

/-- Merges runs until the lengths on the stack fall fast enough. -/
def settle (patience : Nat) (runs : List (List α)) : List (List α) × Nat :=
  match runs with
  | top :: second :: third :: rest =>
    if towers third second top && rest.head?.all (towers · third second) then
      if second.length ≤ top.length then
        let (merged, patience) := mergeRuns before patience second top
        settle patience (merged :: third :: rest)
      else (runs, patience)
    else if third.length < top.length then
      let (merged, patience) := mergeRuns before patience third second
      settle patience (top :: merged :: rest)
    else
      let (merged, patience) := mergeRuns before patience second top
      settle patience (merged :: third :: rest)
  | [top, second] =>
    if second.length ≤ top.length then
      let (merged, patience) := mergeRuns before patience second top
      ([merged], patience)
    else (runs, patience)
  | runs => (runs, patience)
termination_by runs.length

/-- Merges all runs that still wait. -/
def conclude (patience : Nat) (runs : List (List α)) : List α :=
  match runs with
  | top :: second :: third :: rest =>
    if third.length < top.length then
      let (merged, patience) := mergeRuns before patience third second
      conclude patience (top :: merged :: rest)
    else
      let (merged, patience) := mergeRuns before patience second top
      conclude patience (merged :: third :: rest)
  | [top, second] => (mergeRuns before patience second top).1
  | [run] => run
  | [] => []
termination_by runs.length

/-- Halves a length until it is short enough for one run, rounding up at the end
if anything was lost. -/
def shortened (length : Nat) (lost : Bool) : Nat :=
  if length < 64 then length + lost.toNat
  else shortened (length / 2) (lost || length % 2 == 1)

/-- The least length of a run in a list of so many items. -/
def leastRun (length : Nat) : Nat := shortened length false

/-- Takes run after run from the items that are left. -/
def arrangeFrom (least patience : Nat) (runs : List (List α)) (items : List α) : List α :=
  match items with
  | [] => conclude before patience runs
  | first :: others =>
    let taken := takeRun before least (first :: others)
    let (runs, patience) := settle before patience (taken.1 :: runs)
    arrangeFrom least patience runs taken.2
termination_by items.length
decreasing_by exact length_takeRun_lt _ _ (List.cons_ne_nil _ _)

/-- Arranges a list by an order: `before` tells of two items whether the first has
to stand in front of the second. -/
def arrange (items : List α) : List α :=
  arrangeFrom before (leastRun items.length) worthwhile [] items

end Harbormaster.Arrangement
