import Harbormaster.Number.Decimal
import Harbormaster.Value.Basic

/-!
Values as JSON text, on one line or indented by two blanks. Only the quote, the
backslash and the control characters below the blank are escaped, and numbers
that are not finite are written as `null`. What has no JSON text a record leaves
out, and a list writes `null` in its place.
-/

namespace Harbormaster.Json

def hexDigit (n : Nat) : Char := (Nat.digitChar n)

def escapeChar (c : Char) : List Char :=
  if c = '"' then ['\\', '"']
  else if c = '\\' then ['\\', '\\']
  else if c = '\n' then ['\\', 'n']
  else if c = '\r' then ['\\', 'r']
  else if c = '\t' then ['\\', 't']
  else if c = '\x08' then ['\\', 'b']
  else if c = '\x0c' then ['\\', 'f']
  else if c.toNat < 0x20 then
    ['\\', 'u', '0', '0', hexDigit (c.toNat / 16), hexDigit (c.toNat % 16)]
  else [c]

def quote (s : String) : String :=
  .ofList ('"' :: s.toList.flatMap escapeChar ++ ['"'])

def numberText (n : Number) : String := if n.isFinite then n.toText else "null"

mutual

/-- The JSON text of a value. Of a value that has none it says so. -/
def print : Value → String
  | .missing | .native (.method _) | .native (.listMethod _) | .fallback _ => "undefined"
  | .native .root => "\x7b\x7d"
  | .absent => "null"
  | .boolean b => if b then "true" else "false"
  | .number n => numberText n
  | .text s => quote s
  | .list items => "[" ++ ",".intercalate (printItems items) ++ "]"
  | .record ⟨entries⟩ => "\x7b" ++ ",".intercalate (printEntries entries) ++ "\x7d"

def printItems : List Value → List String
  | [] => []
  | v :: rest => (if v.hasForm then print v else "null") :: printItems rest

def printEntries : List (String × Value) → List String
  | [] => []
  | (name, v) :: rest =>
    if v.hasForm then (quote name ++ ":" ++ print v) :: printEntries rest else printEntries rest

end

/-- Members between brackets, one a line, indented one level further. Without
members the brackets stand together. -/
def block (indent : String) (opening closing : String) (members : List String) : String :=
  if members.isEmpty then opening ++ closing
  else
    let line := "\n" ++ indent
    opening ++ line ++ "  " ++ ("," ++ line ++ "  ").intercalate members ++ line ++ closing

mutual

def printIndentedAt (indent : String) : Value → String
  | .list items => block indent "[" "]" (indentedItems (indent ++ "  ") items)
  | .record ⟨entries⟩ => block indent "\x7b" "\x7d" (indentedEntries (indent ++ "  ") entries)
  | v => print v

def indentedItems (indent : String) : List Value → List String
  | [] => []
  | v :: rest =>
    (if v.hasForm then printIndentedAt indent v else "null") :: indentedItems indent rest

def indentedEntries (indent : String) : List (String × Value) → List String
  | [] => []
  | (name, v) :: rest =>
    if v.hasForm then
      (quote name ++ ": " ++ printIndentedAt indent v) :: indentedEntries indent rest
    else indentedEntries indent rest

end

def printIndented (v : Value) : String := printIndentedAt "" v

end Harbormaster.Json
