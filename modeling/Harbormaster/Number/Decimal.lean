import Harbormaster.Number.Basic

/-!
The written form of a number. The digits are the fewest that read back as the
number, and of those the nearest to it; `Number.toText` decides where the
decimal point and an exponent stand. `Number.toFixedText` writes two decimals
instead.
-/

namespace Harbormaster.Number

/-- A positive decimal `digits * 10 ^ exponent`. -/
structure Decimal where
  digits : Nat
  exponent : Int
  deriving DecidableEq

def digitCount (n : Nat) : Nat := (Nat.toDigits 10 n).length

/-- The place of the decimal point of a positive magnitude: the least `p` for
which it is below `10 ^ p`. -/
def pointPlace (units : Nat) : Int :=
  if unit ≤ units then digitCount (units / unit)
  else 1 - (digitCount ((unit - 1) / units) : Int)

/-- The decimals that read back as a magnitude, as a range of quarter units.
The ends belong to it when the significand is even. -/
structure ReadingRange where
  low : Nat
  high : Nat
  closed : Bool

def readingRange (units : Nat) : ReadingRange :=
  let above := 1 <<< excessBits units
  let below := if 1 < above ∧ units = 1 <<< units.log2 then above / 2 else above
  { low := 4 * units - 2 * below
    high := 4 * units + 2 * above
    closed := units / above % 2 = 0 }

/-- A grid of decimals `n * 10 ^ exponent`, with the power of ten as a fraction. -/
structure Grid where
  exponent : Int
  deriving DecidableEq

namespace Grid

def numerator (g : Grid) : Nat := powerOfTen g.exponent.toNat
def denominator (g : Grid) : Nat := powerOfTen (-g.exponent).toNat

/-- The number of the last grid point at or below a magnitude. -/
def floor (g : Grid) (units : Nat) : Nat :=
  units * g.denominator / (unit * g.numerator)

def covers (g : Grid) (range : ReadingRange) (n : Nat) : Bool :=
  let point := 4 * n * g.numerator * unit
  if range.closed then
    range.low * g.denominator ≤ point && point ≤ range.high * g.denominator
  else
    range.low * g.denominator < point && point < range.high * g.denominator

/-- Of two neighbouring grid points around a magnitude, the upper one is taken
when it is nearer, or when both are equally near and it is even. -/
def prefersUpper (g : Grid) (units n : Nat) : Bool :=
  let twice := 2 * units * g.denominator
  let middle := (2 * n + 1) * g.numerator * unit
  middle < twice || (middle = twice && n % 2 = 1)

/-- The grid point that reads back as the magnitude, if the grid has one. -/
def point? (g : Grid) (units : Nat) : Option Nat :=
  let range := readingRange units
  let n := g.floor units
  match g.covers range n, g.covers range (n + 1) with
  | true, true => some (if g.prefersUpper units n then n + 1 else n)
  | true, false => some n
  | false, true => some (n + 1)
  | false, false => none

end Grid

/-- The shortest decimal that reads back as a positive magnitude. Seventeen
digits always suffice. -/
def shortest (units : Nat) : Decimal :=
  let place := pointPlace units
  let grids := (List.range 17).map fun (n : Nat) => Grid.mk (place - (n + 1 : Nat))
  match grids.findSome? fun g => (g.point? units).map (Decimal.mk · g.exponent) with
  | some d => d
  | none =>
    let g : Grid := ⟨place - 17⟩
    ⟨g.floor units, g.exponent⟩

/-- The digits of a decimal without trailing zeros. -/
def Decimal.significantDigits (d : Decimal) : List Char :=
  ((Nat.toDigits 10 d.digits).reverse.dropWhile (· = '0')).reverse

/-- A decimal is written positionally when its first digit stands at most 21
places before the decimal point or at most six behind it, and with an exponent
otherwise. -/
def Decimal.toText (d : Decimal) : String :=
  let digits := d.significantDigits
  let place : Int := digitCount d.digits + d.exponent
  let zeros (n : Int) : List Char := List.replicate n.toNat '0'
  if 0 < place ∧ place ≤ 21 then
    if digits.length ≤ place then .ofList (digits ++ zeros (place - digits.length))
    else .ofList (digits.take place.toNat ++ '.' :: digits.drop place.toNat)
  else if -6 < place ∧ place ≤ 0 then
    .ofList ('0' :: '.' :: zeros (-place) ++ digits)
  else
    let fraction := match digits.drop 1 with
      | [] => []
      | rest => '.' :: rest
    let sign := if place - 1 < 0 then "-" else "+"
    .ofList (digits.take 1 ++ fraction) ++ "e" ++ sign ++ (place - 1).natAbs.repr

def signed (negative : Bool) (text : String) : String :=
  if negative then "-" ++ text else text

/-- The text of a number. Whole numbers below `2 ^ 53` lie at most one apart,
so their own digits are the fewest that read back. -/
def toText : Number → String
  | .notANumber => "NaN"
  | .infinite negative => signed negative "Infinity"
  | .finite units _ =>
    let magnitude := units.natAbs
    signed (units < 0) <|
      if magnitude % unit = 0 ∧ magnitude / unit < 1 <<< 53 then (magnitude / unit).repr
      else (shortest magnitude).toText

/-- The text with two decimals, rounded on the exact value, a tie away from
zero. From `10 ^ 21` on it is the plain text. -/
def toFixedText (x : Number) : String :=
  match x with
  | .finite units _ =>
    let magnitude := units.natAbs
    if powerOfTen 21 * unit ≤ magnitude then x.toText
    else
      let hundredths := (200 * magnitude + unit) / (2 * unit)
      let cents := hundredths % 100
      signed (units < 0) <|
        (hundredths / 100).repr ++ "." ++ (if cents < 10 then "0" else "") ++ cents.repr
  | _ => x.toText

end Harbormaster.Number
