import Harbormaster.Number.Reader

/-!
The tokens of a JSON text. The scanner reads one character at a time; a number
or a word ends at the first character that cannot belong to it, which is then
read on its own.
-/

namespace Harbormaster.Json

inductive Token where
  | openRecord
  | closeRecord
  | openList
  | closeList
  | comma
  | colon
  | text (value : String)
  | number (value : Number)
  | boolean (value : Bool)
  | null

/-- A number has no leading zeros, no plus sign, and digits on both sides of
its point. -/
def readNumber? (cs : List Char) : Option Number :=
  let (negative, rest) := match cs with
    | '-' :: rest => (true, rest)
    | rest => (false, rest)
  match Number.parts? rest with
  | none => none
  | some p =>
    let wholeOk := match p.whole with
      | [] => false
      | ['0'] => true
      | c :: _ => c ≠ '0'
    if wholeOk && (!p.pointed || !p.fraction.isEmpty) then some (p.toNumber negative)
    else none

def isSpace (c : Char) : Bool := c == ' ' || c == '\t' || c == '\n' || c == '\r'

/-- Letters, digits and the signs of numbers: what a number or a word is made of. -/
def isWordChar (c : Char) : Bool := c.isAlphanum || c == '-' || c == '+' || c == '.'

def wordToken? (word : List Char) : Option Token :=
  if word = "true".toList then some (.boolean true)
  else if word = "false".toList then some (.boolean false)
  else if word = "null".toList then some .null
  else (readNumber? word).map .number

def markToken? (c : Char) : Option Token :=
  match c with
  | '\x7b' => some .openRecord
  | '\x7d' => some .closeRecord
  | '[' => some .openList
  | ']' => some .closeList
  | ',' => some .comma
  | ':' => some .colon
  | _ => none

/-- Where the scanner stands; collected characters are in reverse order. -/
inductive ScanState where
  | between
  | word (collected : List Char)
  | text (collected : List Char) (surrogate : Option Nat)
  | escape (collected : List Char) (surrogate : Option Nat)
  | code (collected : List Char) (surrogate : Option Nat) (digits value : Nat)

/-- The character that an escape of one letter stands for. -/
def escaped? (c : Char) : Option Char :=
  match c with
  | '"' => some '"'
  | '\\' => some '\\'
  | '/' => some '/'
  | 'b' => some '\x08'
  | 'f' => some '\x0c'
  | 'n' => some '\n'
  | 'r' => some '\r'
  | 't' => some '\t'
  | _ => none

/-- The replacement for half of a surrogate pair that stands alone. -/
def replacement : Char := Char.ofNat 0xFFFD

/-- Closes a pending first half of a pair that has no second half. -/
def settle (collected : List Char) (surrogate : Option Nat) : List Char :=
  match surrogate with
  | some _ => replacement :: collected
  | none => collected

/-- Adds a sixteen-bit unit: two halves of a pair make one character. -/
def addUnit (collected : List Char) (surrogate : Option Nat) (unit : Nat) :
    List Char × Option Nat :=
  if 0xDC00 ≤ unit ∧ unit < 0xE000 then
    match surrogate with
    | some high =>
      (Char.ofNat (0x10000 + (high - 0xD800) * 0x400 + (unit - 0xDC00)) :: collected, none)
    | none => (replacement :: collected, none)
  else if 0xD800 ≤ unit ∧ unit < 0xDC00 then (settle collected surrogate, some unit)
  else (Char.ofNat unit :: settle collected surrogate, none)

/-- Reads one character where a token may begin. -/
def beginToken (c : Char) (tokens : List Token) : Option (ScanState × List Token) :=
  if isSpace c then some (.between, tokens)
  else if c = '"' then some (.text [] none, tokens)
  else if isWordChar c then some (.word [c], tokens)
  else (markToken? c).map fun t => (.between, t :: tokens)

/-- One step of the scanner; the tokens are in reverse order. -/
def scanStep (state : ScanState) (tokens : List Token) (c : Char) :
    Option (ScanState × List Token) :=
  match state with
  | .between => beginToken c tokens
  | .word collected =>
    if isWordChar c then some (.word (c :: collected), tokens)
    else (wordToken? collected.reverse).bind fun t => beginToken c (t :: tokens)
  | .text collected surrogate =>
    if c = '"' then
      some (.between, .text (.ofList (settle collected surrogate).reverse) :: tokens)
    else if c = '\\' then some (.escape collected surrogate, tokens)
    else if c.toNat < 0x20 then none
    else some (.text (c :: settle collected surrogate) none, tokens)
  | .escape collected surrogate =>
    if c = 'u' then some (.code collected surrogate 0 0, tokens)
    else (escaped? c).map fun plain => (.text (plain :: settle collected surrogate) none, tokens)
  | .code collected surrogate digits value =>
    (Number.digitValue? 16 c).map fun d =>
      let value := 16 * value + d
      if digits = 3 then
        let (collected, surrogate) := addUnit collected surrogate value
        (.text collected surrogate, tokens)
      else (.code collected surrogate (digits + 1) value, tokens)

def scanFrom (state : ScanState) (tokens : List Token) : List Char → Option (List Token)
  | [] =>
    match state with
    | .between => some tokens.reverse
    | .word collected => (wordToken? collected.reverse).map fun t => (t :: tokens).reverse
    | _ => none
  | c :: rest =>
    match scanStep state tokens c with
    | some (state, tokens) => scanFrom state tokens rest
    | none => none

/-- The tokens of a text, if all of it scans. -/
def scan? (s : String) : Option (List Token) := scanFrom .between [] s.toList

end Harbormaster.Json
