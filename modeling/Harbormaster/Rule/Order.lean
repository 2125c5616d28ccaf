import Harbormaster.Arrangement.Basic
import Harbormaster.Rule.Basic

/-!
The order in which rules have their turn: by descending priority, and as
declared among rules of equal priority. A priority that is no number ranks
neither above nor below any other, so a set that holds one has no order of this
kind; it is arranged run by run, as far as its priorities go.
-/

namespace Harbormaster.Rule

/-- Whether the priority of a rule puts it before another. -/
def outranks (rule other : Rule) : Bool := other.rank.lt rule.rank

/-- Arranges rules by descending priority. -/
def byPriority (rules : List Rule) : List Rule :=
  if rules.any (·.rank.isNaN) then Arrangement.arrange outranks rules
  else rules.mergeSort fun a b => !b.outranks a

end Harbormaster.Rule
