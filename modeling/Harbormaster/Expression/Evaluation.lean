import Harbormaster.Expression.Token
import Harbormaster.World.Cell

/-!
Evaluation of expressions over the world, by the grammar

  sum     := product (('+' | '-') product)*
  product := factor (('*' | '/') factor)*
  factor  := ('+' | '-') factor | number | path | '(' sum ')'

Operands are read from left to right and each failure is raised where it is
met, so the leftmost one is reported. Every step hands on the tokens it has
left, never more than it was given, and a step that reads a value hands on fewer.
-/

namespace Harbormaster.Expression

/-- The tokens left after a step that has to take at least one. -/
abbrev Fewer (tokens : List Token) := { rest : List Token // rest.length < tokens.length }

/-- The tokens left after a step that may take none. -/
abbrev NoMore (tokens : List Token) := { rest : List Token // rest.length ≤ tokens.length }

/-- The value of a path as an operand. -/
def operand (w : World) (path : String) : Except Failure Number :=
  match w.read path with
  | .error failure => .error failure
  | .ok (.number n) => .ok n
  | .ok found => .error (.typeMismatch (.operandNotNumeric path found))

mutual

def evalSum (w : World) (source : String) (tokens : List Token) :
    Except Failure (Number × Fewer tokens) :=
  match evalProduct w source tokens with
  | .error failure => .error failure
  | .ok (value, rest) =>
    match evalSumRest w source value rest.val with
    | .error failure => .error failure
    | .ok (value, final) => .ok (value, ⟨final.val, Nat.lt_of_le_of_lt final.2 rest.2⟩)
termination_by (tokens.length, 3)
decreasing_by
  · exact Prod.Lex.right _ (by decide)
  · exact Prod.Lex.left _ _ rest.2

/-- Adds and subtracts the products that follow a value. -/
def evalSumRest (w : World) (source : String) (value : Number) (tokens : List Token) :
    Except Failure (Number × NoMore tokens) :=
  match tokens with
  | .operation .plus :: tail =>
    match evalProduct w source tail with
    | .error failure => .error failure
    | .ok (right, rest) =>
      match evalSumRest w source (value + right) rest.val with
      | .error failure => .error failure
      | .ok (value, final) =>
        .ok (value, ⟨final.val,
          by have := final.2; have := rest.2; simp only [List.length_cons]; omega⟩)
  | .operation .minus :: tail =>
    match evalProduct w source tail with
    | .error failure => .error failure
    | .ok (right, rest) =>
      match evalSumRest w source (value - right) rest.val with
      | .error failure => .error failure
      | .ok (value, final) =>
        .ok (value, ⟨final.val,
          by have := final.2; have := rest.2; simp only [List.length_cons]; omega⟩)
  | tokens => .ok (value, ⟨tokens, Nat.le_refl _⟩)
termination_by (tokens.length, 0)
decreasing_by
  all_goals
    apply Prod.Lex.left
    try have := rest.2
    simp only [List.length_cons]
    omega

def evalProduct (w : World) (source : String) (tokens : List Token) :
    Except Failure (Number × Fewer tokens) :=
  match evalFactor w source tokens with
  | .error failure => .error failure
  | .ok (value, rest) =>
    match evalProductRest w source value rest.val with
    | .error failure => .error failure
    | .ok (value, final) => .ok (value, ⟨final.val, Nat.lt_of_le_of_lt final.2 rest.2⟩)
termination_by (tokens.length, 2)
decreasing_by
  · exact Prod.Lex.right _ (by decide)
  · exact Prod.Lex.left _ _ rest.2

/-- Multiplies and divides by the factors that follow a value. -/
def evalProductRest (w : World) (source : String) (value : Number) (tokens : List Token) :
    Except Failure (Number × NoMore tokens) :=
  match tokens with
  | .operation .times :: tail =>
    match evalFactor w source tail with
    | .error failure => .error failure
    | .ok (right, rest) =>
      match evalProductRest w source (value * right) rest.val with
      | .error failure => .error failure
      | .ok (value, final) =>
        .ok (value, ⟨final.val,
          by have := final.2; have := rest.2; simp only [List.length_cons]; omega⟩)
  | .operation .dividedBy :: tail =>
    match evalFactor w source tail with
    | .error failure => .error failure
    | .ok (right, rest) =>
      if right.eq 0 then .error (.invalidAction (.divisionByZero source))
      else
        match evalProductRest w source (value / right) rest.val with
        | .error failure => .error failure
        | .ok (value, final) =>
          .ok (value, ⟨final.val,
            by have := final.2; have := rest.2; simp only [List.length_cons]; omega⟩)
  | tokens => .ok (value, ⟨tokens, Nat.le_refl _⟩)
termination_by (tokens.length, 0)
decreasing_by
  all_goals
    apply Prod.Lex.left
    try have := rest.2
    simp only [List.length_cons]
    omega

def evalFactor (w : World) (source : String) (tokens : List Token) :
    Except Failure (Number × Fewer tokens) :=
  match tokens with
  | [] => .error (.invalidAction (.unexpectedEnd source))
  | .number value :: tail => .ok (value, ⟨tail, Nat.lt_succ_self _⟩)
  | .path path :: tail =>
    match operand w path with
    | .error failure => .error failure
    | .ok value => .ok (value, ⟨tail, Nat.lt_succ_self _⟩)
  | .operation .minus :: tail =>
    match evalFactor w source tail with
    | .error failure => .error failure
    | .ok (value, rest) => .ok (-value, ⟨rest.val, Nat.lt_succ_of_lt rest.2⟩)
  | .operation .plus :: tail =>
    match evalFactor w source tail with
    | .error failure => .error failure
    | .ok (value, rest) => .ok (value, ⟨rest.val, Nat.lt_succ_of_lt rest.2⟩)
  | .operation operation :: _ =>
    .error (.invalidAction (.unexpectedToken operation.symbol source))
  | .opening :: tail =>
    match evalSum w source tail with
    | .error failure => .error failure
    | .ok (value, ⟨.closing :: rest, shorter⟩) =>
      .ok (value, ⟨rest, by simp only [List.length_cons] at shorter ⊢; omega⟩)
    | .ok _ => .error (.invalidAction (.missingParenthesis source))
  | .closing :: _ => .error (.invalidAction (.unexpectedToken ")" source))
termination_by (tokens.length, 1)
decreasing_by
  all_goals exact Prod.Lex.left _ _ (Nat.lt_succ_self _)

end

/-- The value of a whole list of tokens. -/
def evalTokens (w : World) (source : String) (tokens : List Token) : Except Failure Number :=
  match evalSum w source tokens with
  | .error failure => .error failure
  | .ok (value, ⟨[], _⟩) => .ok value
  | .ok _ => .error (.invalidAction (.trailingInput source))

/-- The value of the text between the braces of an expression. -/
def evaluate (source : String) (w : World) : Except Failure Number :=
  match tokens source with
  | .error failure => .error failure
  | .ok [] => .error (.invalidAction .emptyExpression)
  | .ok tokens => evalTokens w source tokens

end Harbormaster.Expression
