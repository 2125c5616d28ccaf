import Harbormaster.Expression.Evaluation

/-!
Operands of conditions and actions. A text in double braces is an expression, a
field path stands for the value of its cell, and everything else is a literal.
-/

namespace Harbormaster

namespace Expression

/-- The text between the double braces that enclose a text, white space around
them apart. At least one character has to stand between them. -/
def body? (s : String) : Option String :=
  match Text.trimChars s.toList with
  | '\x7b' :: '\x7b' :: inner =>
    match inner.reverse with
    | '\x7d' :: '\x7d' :: reversed =>
      if reversed.isEmpty then none else some (.ofList reversed.reverse)
    | _ => none
  | _ => none

end Expression

/-- Whether a text is an expression. -/
def isExpression (s : String) : Bool := (Expression.body? s).isSome

/-- The value that an operand stands for. -/
def World.resolve (w : World) (operand : Value) : Except Failure Value :=
  match operand with
  | .text s =>
    match Expression.body? s with
    | some body => (Expression.evaluate (Text.trim body) w).map .number
    | none => if isFieldPath s then w.read s else .ok operand
  | _ => .ok operand

end Harbormaster
