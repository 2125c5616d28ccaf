import Harbormaster.Input.Basic
import Harbormaster.Number.Reader

/-!
Inputs and values as they are typed on a command line. A literal is a truth
value, a decimal or else a text; an input is a type and, after a colon, pairs
`key=value` separated by commas.
-/

namespace Harbormaster

/-- Digits, with a decimal point and further digits if desired, after a minus
sign if there is one. -/
def decimalLiteral? (cs : List Char) : Option Number :=
  let (negative, rest) := match cs with
    | '-' :: rest => (true, rest)
    | rest => (false, rest)
  let whole := rest.takeWhile Char.isDigit
  let allDigits (digits : List Char) : Bool := !digits.isEmpty && digits.all Char.isDigit
  match rest.dropWhile Char.isDigit with
  | [] =>
    if whole.isEmpty then none
    else some (.ofDecimal negative (Number.digitsValue whole) 0)
  | '.' :: fraction =>
    if !whole.isEmpty && allDigits fraction then
      some (.ofDecimal negative (Number.digitsValue (whole ++ fraction)) (-(fraction.length : Int)))
    else none
  | _ => none

/-- Reads a literal; white space around it does not count. -/
def readLiteral (s : String) : Value :=
  let text := Text.trim s
  if text = "true" then .boolean true
  else if text = "false" then .boolean false
  else match decimalLiteral? text.toList with
    | some n => .number n
    | none => .text text

namespace Input

/-- Reads one pair of an input and adds it to the parameters. The equals sign
must not be the first character. -/
def readPair (spec : String) (params : Record Value) (pair : String) :
    Except Failure (Record Value) :=
  match Text.cut? '=' pair with
  | some (key, text) =>
    if key.isEmpty then .error (.input (.malformedPair spec pair))
    else .ok (params.assign (Text.trim key) (readLiteral text))
  | none => .error (.input (.malformedPair spec pair))

def readPairs (spec : String) : Record Value → List String → Except Failure (Record Value)
  | params, [] => .ok params
  | params, pair :: rest =>
    match readPair spec params pair with
    | .ok params => readPairs spec params rest
    | .error failure => .error failure

/-- Reads an input from its text. Blank pairs are passed over. -/
def ofSpec (spec : String) : Except Failure Input :=
  let (head, tail) := (Text.cut? ':' spec).getD (spec, "")
  let type := Text.trim head
  if type.isEmpty then .error (.input (.noType spec))
  else
    let pairs := (Text.split ',' tail).filter (!Text.isAllBlank ·)
    (readPairs spec ∅ pairs).map fun params => ⟨type, .record params⟩

end Input

end Harbormaster
