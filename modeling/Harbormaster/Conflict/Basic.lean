import Harbormaster.Failure
import Harbormaster.Value.Order

/-!
Conflicts between rules over one cell in one tick: what a rule asks to write,
what is known of a cell that has been written, and the record of a conflict.
-/

namespace Harbormaster

/-- The bounds of a clamping write. -/
structure ClampRange where
  low : Number
  high : Number
  deriving DecidableEq

namespace ClampRange

def clamp (r : ClampRange) (n : Number) : Number := (n.max r.low).min r.high

def meet (r s : ClampRange) : ClampRange := ⟨r.low.max s.low, r.high.min s.high⟩

end ClampRange

/-- What one action asks to write. -/
structure WriteRequest where
  path : String
  value : Value
  ruleId : String
  /-- The priority of the rule as it is written. -/
  priority : Value
  action : Action
  ruleMetadata : Record Value
  range : Option ClampRange

/-- The numeric value of a write that is no clamp. -/
def WriteRequest.scalar? (r : WriteRequest) : Option Number :=
  if r.range.isSome then none else r.value.number?

/-- What is known of a cell that has been written in this tick. -/
structure CellEntry where
  /-- The value before the first write of the tick, missing when there was none. -/
  base : Value
  /-- The value now, missing when the cell is unset. -/
  value : Value
  /-- The rule whose write holds the cell. -/
  holder : Option String
  holderPriority : Value
  /-- All writes so far, in order. -/
  writers : List WriteRequest
  /-- The number that a merge starts from. -/
  scalar : Option Number
  range : Option ClampRange
  mergedRules : List String
  underReview : Bool

/-- The outcome of a conflicting write. -/
structure Resolution where
  strategy : Strategy
  /-- The value of the cell after it, missing when the cell is unset. -/
  value : Value
  holder : Option String
  holderPriority : Value
  scalar : Option Number
  range : Option ClampRange
  mergedRules : List String
  resolved : Bool
  fallbackFrom : Option Strategy
  note : Option String

/-- What a conflict ended in. -/
structure ConflictResult where
  finalValue : Value
  /-- The rule whose write gives the final value; none under manual review. -/
  keptRule : Option String
  mergedRules : List String
  /-- The strategy that could not be applied, if another one stood in. -/
  fallbackFrom : Option Strategy
  note : Option String

structure ConflictRecord where
  id : String
  path : String
  timestamp : Value
  /-- The rules that have written the cell, in order of their first writes. -/
  conflictingRules : List String
  conflictingActions : List Action
  strategy : Strategy
  result : ConflictResult
  resolved : Bool

end Harbormaster
