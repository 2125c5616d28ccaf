import Harbormaster.Failure
import Harbormaster.Number.Reader

/-!
Comparison of two values. Order is between numbers, and a text that spells a
finite number counts as that number; equality converts nothing; membership
looks for an equal item of a list.
-/

namespace Harbormaster

/-- A side of an ordered comparison as a number. -/
def comparand (operator : Operator) (side : Side) (v : Value) : Except Failure Number :=
  let refused := Except.error (.typeMismatch (.comparisonNeedsNumber operator side v))
  match v with
  | .number n => .ok n
  | .text s =>
    if Text.isAllBlank s then refused
    else match Number.read? s with
      | some n => if n.isFinite then .ok n else refused
      | none => refused
  | _ => refused

/-- An ordered comparison reads its left side first. -/
def compareOrdered (operator : Operator) (test : Number → Number → Bool) (left right : Value) :
    Except Failure Bool :=
  match comparand operator .left left with
  | .error failure => .error failure
  | .ok a =>
    match comparand operator .right right with
    | .error failure => .error failure
    | .ok b => .ok (test a b)

def compareValues (left : Value) (operator : Operator) (right : Value) : Except Failure Bool :=
  match operator with
  | .less => compareOrdered operator Number.lt left right
  | .greater => compareOrdered operator (fun a b => b.lt a) left right
  | .lessEqual => compareOrdered operator Number.le left right
  | .greaterEqual => compareOrdered operator (fun a b => b.le a) left right
  | .equal => .ok (left.same right)
  | .unequal => .ok (!left.same right)
  | .isIn =>
    match right with
    | .list items => .ok (items.any left.same)
    | _ => .error (.typeMismatch (.membershipNeedsList right))

/-- Compares a value with itself, read twice from one place: then a list or a
record is equal to itself whatever it holds. -/
def compareWithItself (v : Value) (operator : Operator) : Except Failure Bool :=
  match operator with
  | .equal => .ok v.sameAsItself
  | .unequal => .ok (!v.sameAsItself)
  | operator => compareValues v operator v

end Harbormaster
