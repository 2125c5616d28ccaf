import Harbormaster.Number.Decimal
import Harbormaster.Number.Reader
import Harbormaster.Value.Basic

/-!
The texts of a value. `plainText` is what a value becomes inside another text,
`trace` is how an explanation shows it, `operandText` how a condition names its
operand, and `templateText` how a message for readers shows it. `asNumber` is
what a value amounts to where a number is called for.
-/

namespace Harbormaster.Value

mutual

/-- Items are joined by commas, and an item that stands for nothing leaves its
place empty. -/
def plainText : Value → String
  | missing => "undefined"
  | absent => "null"
  | boolean b => if b then "true" else "false"
  | number n => n.toText
  | text s => s
  | list items => ",".intercalate (plainItems items)
  | record _ => "[object Object]"
  | native thing => thing.text
  | fallback _ => "undefined"

def plainItems : List Value → List String
  | [] => []
  | missing :: rest | absent :: rest => "" :: plainItems rest
  | v :: rest => v.plainText :: plainItems rest

end

mutual

/-- Whether a value has a plain text. A record that holds a member in place of the function
that makes its text has none. -/
def hasText : Value → Bool
  | list items => haveText items
  | record r => !r.contains "toString"
  | _ => true

def haveText : List Value → Bool
  | [] => true
  | v :: rest => v.hasText && haveText rest

end

/-- The plain texts of the items of a list. -/
def joinItems (separator : String) (items : List Value) : String :=
  separator.intercalate (plainItems items)

mutual

/-- Texts stand in single quotes and lists in brackets. -/
def trace : Value → String
  | absent => "absent"
  | text s => "'" ++ s ++ "'"
  | list items => "[" ++ ", ".intercalate (traceItems items) ++ "]"
  | v => v.plainText

def traceItems : List Value → List String
  | [] => []
  | v :: rest => v.trace :: traceItems rest

end

/-- An operand is named by its plain text, a list by its trace. -/
def operandText : Value → String
  | list items => trace (list items)
  | v => v.plainText

mutual

/-- Whole numbers have no decimals here and all others have two. -/
def templateText : Value → String
  | absent => "absent"
  | number n => if n.isInteger then n.toText else n.toFixedText
  | list items => ", ".intercalate (templateItems items)
  | v => v.plainText

def templateItems : List Value → List String
  | [] => []
  | v :: rest => v.templateText :: templateItems rest

end

/-- The absent marker amounts to zero and a list to what its text spells. -/
def asNumber : Value → Number
  | absent => 0
  | boolean b => if b then 1 else 0
  | number n => n
  | text s => .ofText s
  | list items => .ofText (list items).plainText
  | missing | record _ | native _ | fallback _ => .notANumber

end Harbormaster.Value

namespace Harbormaster.Record

/-- A member inside a text. -/
def shown (r : Record Value) (name : String) : String := (r.member name).plainText

end Harbormaster.Record

namespace Harbormaster.Value

/-- A member of a record inside a text. -/
def shown (v : Value) (name : String) : String := (v.member name).plainText

/-- The items of a member that is a list. -/
def items (v : Value) (name : String) : List Value := (v.member name).list?.getD []

end Harbormaster.Value
