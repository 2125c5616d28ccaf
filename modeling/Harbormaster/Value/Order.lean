import Harbormaster.Text.Units
import Harbormaster.Value.Written

/-!
The order by which priorities are weighed against each other. Two values that are
written as texts are ordered as texts, unit by unit; all others are ordered by the
numbers that they amount to, so between numbers it is their own order.
-/

namespace Harbormaster.Value

/-- Whether a value is written as a text: a text itself, a list, a record or
what is native. -/
def isWorded : Value → Bool
  | text _ | list _ | record _ | native _ => true
  | _ => false

/-- Whether a value lies below another one. -/
def lt (a b : Value) : Bool :=
  if a.isWorded && b.isWorded then !Text.le b.plainText a.plainText
  else a.asNumber.lt b.asNumber

@[simp] theorem lt_number (a b : Number) : (number a).lt (number b) = a.lt b := rfl

end Harbormaster.Value
