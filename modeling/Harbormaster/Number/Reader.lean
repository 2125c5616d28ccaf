import Harbormaster.Number.Basic
import Harbormaster.Text.Blank

/-!
Reading numbers from text. `readDecimal?` takes unsigned decimals, with a
fraction and an exponent if they are there; `read?` takes every spelling of a
number, with a sign, as infinity or in another base, and white space around it.
-/

namespace Harbormaster.Number

/-- The value of a run of digits. -/
def digitsValue (digits : List Char) : Nat :=
  digits.foldl (fun n c => 10 * n + (c.toNat - '0'.toNat)) 0

/-- The parts of an unsigned decimal: digits before and after the point, and
the exponent. -/
structure Parts where
  whole : List Char
  fraction : List Char
  exponent : Int
  /-- Whether there is a decimal point. -/
  pointed : Bool

/-- Splits an unsigned decimal into its parts. An exponent has digits if it is
there at all, and nothing may follow. -/
def parts? (cs : List Char) : Option Parts :=
  let (whole, rest) := cs.span Char.isDigit
  let (fraction, rest, pointed) := match rest with
    | '.' :: rest => ((rest.span Char.isDigit).1, (rest.span Char.isDigit).2, true)
    | _ => ([], rest, false)
  match rest with
  | [] => some ⟨whole, fraction, 0, pointed⟩
  | e :: rest =>
    if e ≠ 'e' ∧ e ≠ 'E' then none
    else
      let (negative, digits) := match rest with
        | '-' :: digits => (true, digits)
        | '+' :: digits => (false, digits)
        | digits => (false, digits)
      if digits.isEmpty ∨ ¬ digits.all Char.isDigit then none
      else
        let power : Int := digitsValue digits
        some ⟨whole, fraction, if negative then -power else power, pointed⟩

def Parts.toNumber (p : Parts) (negative : Bool) : Number :=
  ofDecimal negative (digitsValue (p.whole ++ p.fraction)) (p.exponent - p.fraction.length)

/-- An unsigned decimal with at least one digit on either side of the point. -/
def readDecimal? (negative : Bool) (cs : List Char) : Option Number :=
  match parts? cs with
  | some p => if p.whole.isEmpty && p.fraction.isEmpty then none else some (p.toNumber negative)
  | none => none

def digitValue? (base : Nat) (c : Char) : Option Nat :=
  let value? :=
    if c.isDigit then some (c.toNat - '0'.toNat)
    else if 'a' ≤ c && c ≤ 'z' then some (c.toNat - 'a'.toNat + 10)
    else if 'A' ≤ c && c ≤ 'Z' then some (c.toNat - 'A'.toNat + 10)
    else none
  value?.filter (· < base)

/-- A run of digits in the given base. -/
def readBase? (base : Nat) (cs : List Char) : Option Number :=
  if cs.isEmpty then none
  else (cs.mapM (digitValue? base)).map fun values =>
    ofNat (values.foldl (fun n d => base * n + d) 0)

/-- Decimals and infinity, after their sign. -/
def readSigned? (negative : Bool) (cs : List Char) : Option Number :=
  if cs = "Infinity".toList then some (.infinite negative) else readDecimal? negative cs

/-- The number a text spells, `none` when it spells none. White space around it
does not count, and a text of white space alone is zero. -/
def read? (s : String) : Option Number :=
  match Text.trimChars s.toList with
  | [] => some 0
  | '-' :: rest => readSigned? true rest
  | '+' :: rest => readSigned? false rest
  | '0' :: base :: rest =>
    if base = 'x' ∨ base = 'X' then readBase? 16 rest
    else if base = 'o' ∨ base = 'O' then readBase? 8 rest
    else if base = 'b' ∨ base = 'B' then readBase? 2 rest
    else readSigned? false ('0' :: base :: rest)
  | rest => readSigned? false rest

/-- The number a text spells, or the value that is no number. -/
def ofText (s : String) : Number := (read? s).getD .notANumber

end Harbormaster.Number
