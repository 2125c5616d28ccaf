import Harbormaster.Failure
import Harbormaster.Number.Reader

/-!
The tokens of an arithmetic expression: unsigned decimals, dotted paths, the
four operators and parentheses. Each token is the longest that fits, white space
between tokens does not count, and a character that begins no token is refused
at the position where its white space begins.
-/

namespace Harbormaster.Expression

inductive Operation where
  | plus | minus | times | dividedBy
  deriving DecidableEq, Repr

def Operation.symbol : Operation → String
  | plus => "+"
  | minus => "-"
  | times => "*"
  | dividedBy => "/"

inductive Token where
  | number (value : Number)
  | path (text : String)
  | operation (operation : Operation)
  | opening
  | closing
  deriving DecidableEq

/-- Letters, digits and underscores. A path in an expression has no hyphens,
which would read as subtraction. -/
def isNameChar (c : Char) : Bool := c.isAlphanum || c == '_'

def isNameStart (c : Char) : Bool := c.isAlpha || c == '_'

/-- The longest run of names joined by single dots at the start of a text, and
what follows it. -/
def spanPath : List Char → List Char × List Char
  | [] => ([], [])
  | c :: rest =>
    if isNameChar c || (c == '.' && rest.head?.any isNameChar) then
      (c :: (spanPath rest).1, (spanPath rest).2)
    else ([], c :: rest)

/-- The longest unsigned decimal at the start of a text, as its digits before
and after the point, and what follows it. -/
def spanDecimal (cs : List Char) : List Char × List Char × List Char :=
  let whole := cs.takeWhile Char.isDigit
  let rest := cs.dropWhile Char.isDigit
  match rest with
  | '.' :: tail =>
    if (tail.takeWhile Char.isDigit).isEmpty then (whole, [], rest)
    else (whole, tail.takeWhile Char.isDigit, tail.dropWhile Char.isDigit)
  | _ => (whole, [], rest)

/-- The number that two runs of digits around a point stand for. -/
def decimalValue (whole fraction : List Char) : Number :=
  .ofDecimal false (Number.digitsValue (whole ++ fraction)) (-(fraction.length : Int))

/-- The longest token at the start of a text without leading white space. -/
def token? (cs : List Char) : Option (Token × List Char) :=
  match cs with
  | [] => none
  | c :: rest =>
    if c.isDigit then
      let (whole, fraction, rest) := spanDecimal cs
      some (.number (decimalValue whole fraction), rest)
    else if isNameStart c then
      let (path, rest) := spanPath cs
      if path.contains '.' then some (.path (.ofList path), rest) else none
    else match c with
      | '+' => some (.operation .plus, rest)
      | '-' => some (.operation .minus, rest)
      | '*' => some (.operation .times, rest)
      | '/' => some (.operation .dividedBy, rest)
      | '(' => some (.opening, rest)
      | ')' => some (.closing, rest)
      | _ => none

theorem spanPath_append (cs : List Char) : (spanPath cs).1 ++ (spanPath cs).2 = cs := by
  induction cs with
  | nil => rfl
  | cons c rest ih =>
    unfold spanPath
    split <;> simp [ih]

theorem length_dropWhile_le (p : Char → Bool) (cs : List Char) :
    (cs.dropWhile p).length ≤ cs.length :=
  (List.dropWhile_sublist p).length_le

theorem length_spanDecimal_lt {c : Char} (digit : c.isDigit) (rest : List Char) :
    (spanDecimal (c :: rest)).2.2.length < (c :: rest).length := by
  have shorter : ((c :: rest).dropWhile Char.isDigit).length < (c :: rest).length := by
    simpa [List.dropWhile_cons, digit] using
      Nat.lt_succ_of_le (length_dropWhile_le Char.isDigit rest)
  unfold spanDecimal
  dsimp only
  split
  · rename_i tail found
    have fewer := length_dropWhile_le Char.isDigit tail
    have size := congrArg List.length found
    simp only [List.length_cons] at size
    split <;> dsimp only <;> omega
  · exact shorter

/-- A token takes at least one character. -/
theorem length_of_token? {cs rest : List Char} {token : Token}
    (found : token? cs = some (token, rest)) : rest.length < cs.length := by
  unfold token? at found
  split at found
  · cases found
  · rename_i c tail
    split at found
    · rename_i digit
      have shorter := length_spanDecimal_lt digit tail
      simp only [Option.some.injEq, Prod.mk.injEq] at found
      rw [← found.2]
      exact shorter
    · split at found
      · rename_i start
        simp only at found
        split at found
        · simp only [Option.some.injEq, Prod.mk.injEq] at found
          rw [← found.2]
          have whole := congrArg List.length (spanPath_append (c :: tail))
          have first : (spanPath (c :: tail)).1 ≠ [] := by
            have name : isNameChar c = true := by
              simp only [isNameStart, isNameChar, Char.isAlphanum, Bool.or_eq_true] at start ⊢
              rcases start with letter | underscore
              · exact .inl (.inl letter)
              · exact .inr underscore
            simp [spanPath, name]
          have := List.length_pos_iff.mpr first
          simp only [List.length_append] at whole
          omega
        · cases found
      · split at found <;>
          first
            | (simp only [Option.some.injEq, Prod.mk.injEq] at found
               rw [← found.2]
               exact Nat.lt_succ_self _)
            | cases found

/-- The tokens of a text that begins at the given position of the source. -/
def tokensFrom (source : String) (position : Nat) (cs : List Char) :
    Except Failure (List Token) :=
  if cs.all Text.isBlank then .ok []
  else
    match _found : token? (cs.dropWhile Text.isBlank) with
    | none => .error (.invalidAction (.unexpectedCharacter source position))
    | some (token, rest) =>
      (tokensFrom source (position + (cs.length - rest.length)) rest).map (token :: ·)
termination_by cs.length
decreasing_by
  exact Nat.lt_of_lt_of_le (length_of_token? _found) (length_dropWhile_le _ cs)

def tokens (source : String) : Except Failure (List Token) :=
  tokensFrom source 0 source.toList

end Harbormaster.Expression
