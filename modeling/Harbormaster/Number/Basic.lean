/-!
Binary64 numbers as exact counts. A finite number is a whole count of units of
`2 ^ -1074`, the distance between the two smallest values, so order and
equality of finite numbers are those of integers and every operation is
computed exactly and rounded once, to the nearest representable count and to
the even significand on a tie. Zero has no sign here: no operation of this
library tells the two zeros apart.
-/

namespace Harbormaster

/-- The first power of two beyond the finite numbers, counted in units of
`2 ^ -1074`. -/
def Number.limit : Nat := 1 <<< 2098

/-- A count of units is representable when it has at most 53 significant bits
and its magnitude lies below `2 ^ 1024`. -/
def Number.Fits (units : Int) : Prop :=
  ∃ significand shift, significand ≤ 1 <<< 53 ∧
    units.natAbs = significand <<< shift ∧ units.natAbs < Number.limit

/-- A binary64 value: a representable count of units, one of the two
infinities, or no number at all. -/
inductive Number where
  | finite (units : Int) (fits : Number.Fits units)
  | infinite (negative : Bool)
  | notANumber
  deriving DecidableEq

namespace Number

/-- The number one, counted in units of `2 ^ -1074`. -/
def unit : Nat := 1 <<< 1074

def powerOfTen (n : Nat) : Nat := Nat.pow 10 n

/-- The low bits of a magnitude that lie beyond its 53 leading ones. -/
def excessBits (magnitude : Nat) : Nat := magnitude.log2 + 1 - 53

/-- The distance between neighbouring representable counts around the
quotient, times the divisor. -/
def roundingStep (numerator denominator : Nat) : Nat :=
  denominator <<< excessBits (numerator / denominator)

/-- The significand of the quotient after rounding to nearest, ties to even. -/
def roundedSignificand (numerator denominator : Nat) : Nat :=
  let step := roundingStep numerator denominator
  let quotient := numerator / step
  let twice := 2 * (numerator % step)
  if step < twice ∨ (twice = step ∧ quotient % 2 = 1) then quotient + 1 else quotient

/-- The representable magnitude nearest to a quotient of units, without an
upper bound. -/
def roundQuotient (numerator denominator : Nat) : Nat :=
  roundedSignificand numerator denominator <<< excessBits (numerator / denominator)

theorem div_pow_excessBits_lt (magnitude : Nat) :
    magnitude / 1 <<< excessBits magnitude < 1 <<< 53 := by
  simp only [Nat.shiftLeft_eq, Nat.one_mul]
  rw [Nat.div_lt_iff_lt_mul (Nat.two_pow_pos _), ← Nat.pow_add]
  refine Nat.lt_of_lt_of_le Nat.lt_log2_self (Nat.pow_le_pow_right (by decide) ?_)
  unfold excessBits
  omega

theorem roundedSignificand_le (numerator denominator : Nat) :
    roundedSignificand numerator denominator ≤ 1 <<< 53 := by
  have bound := div_pow_excessBits_lt (numerator / denominator)
  rw [Nat.div_div_eq_div_mul] at bound
  simp only [Nat.shiftLeft_eq, Nat.one_mul] at bound
  simp only [roundedSignificand, roundingStep, Nat.shiftLeft_eq, Nat.one_mul]
  split <;> omega

theorem fits_roundQuotient {numerator denominator : Nat} (negative : Bool)
    (small : roundQuotient numerator denominator < limit) :
    Fits (if negative then -(roundQuotient numerator denominator : Int)
      else roundQuotient numerator denominator) := by
  have magnitude : (if negative then -(roundQuotient numerator denominator : Int)
      else roundQuotient numerator denominator).natAbs =
        roundQuotient numerator denominator := by
    cases negative <;> simp
  exact ⟨_, _, roundedSignificand_le numerator denominator, magnitude,
    by rw [magnitude]; exact small⟩

/-- The number nearest to a signed quotient of units; beyond the largest
finite number it is infinite. -/
def ofQuotient (negative : Bool) (numerator denominator : Nat) : Number :=
  if small : roundQuotient numerator denominator < limit then
    .finite _ (fits_roundQuotient negative small)
  else .infinite negative

/-- The number nearest to a count of units. -/
def ofUnits (units : Int) : Number := ofQuotient (units < 0) units.natAbs 1

/-- The number nearest to an integer. -/
def ofInt (n : Int) : Number := ofUnits (n * unit)

def ofNat (n : Nat) : Number := ofInt n

instance (n : Nat) : OfNat Number n := ⟨ofNat n⟩

/-- The number nearest to `digits * 10 ^ exponent`. Exponents far outside the
range of finite numbers are decided without computing the power. -/
def ofDecimal (negative : Bool) (digits : Nat) (exponent : Int) : Number :=
  if digits = 0 then 0
  else if 310 ≤ exponent then .infinite negative
  else if 0 ≤ exponent then
    ofQuotient negative (digits * powerOfTen exponent.toNat * unit) 1
  else if digits.log2 + 1080 < 3 * (-exponent).toNat then 0
  else ofQuotient negative (digits * unit) (powerOfTen (-exponent).toNat)

instance : OfScientific Number where
  ofScientific digits negativeExponent exponent :=
    ofDecimal false digits (if negativeExponent then -(exponent : Int) else exponent)

def isFinite : Number → Bool
  | .finite .. => true
  | _ => false

def isNaN : Number → Bool
  | .notANumber => true
  | _ => false

/-- The integer a whole number stands for; none for fractions, infinities and
the value that is no number. -/
def toInt? : Number → Option Int
  | .finite units _ => if units % unit = 0 then some (units / unit) else none
  | _ => none

def isInteger (x : Number) : Bool := x.toInt?.isSome

/-- Numeric order. Nothing is less or greater than the value that is no number. -/
def lt : Number → Number → Bool
  | .finite a _, .finite b _ => a < b
  | .finite .., .infinite negative => !negative
  | .infinite negative, .finite .. => negative
  | .infinite a, .infinite b => a && !b
  | _, _ => false

def le : Number → Number → Bool
  | .finite a _, .finite b _ => a ≤ b
  | .finite .., .infinite negative => !negative
  | .infinite negative, .finite .. => negative
  | .infinite a, .infinite b => a || !b
  | _, _ => false

/-- Numeric equality. The value that is no number differs from itself. -/
def eq : Number → Number → Bool
  | .finite a _, .finite b _ => a == b
  | .infinite a, .infinite b => a == b
  | _, _ => false

protected def max (a b : Number) : Number :=
  if a.isNaN || b.isNaN then .notANumber else if a.lt b then b else a

protected def min (a b : Number) : Number :=
  if a.isNaN || b.isNaN then .notANumber else if b.lt a then b else a

theorem Fits.neg {units : Int} (h : Fits units) : Fits (-units) := by
  simpa [Fits] using h

def neg : Number → Number
  | .finite units fits => .finite (-units) fits.neg
  | .infinite negative => .infinite (!negative)
  | .notANumber => .notANumber

def add : Number → Number → Number
  | .finite a _, .finite b _ => ofUnits (a + b)
  | .finite .., .infinite negative => .infinite negative
  | .infinite negative, .finite .. => .infinite negative
  | .infinite a, .infinite b => if a = b then .infinite a else .notANumber
  | _, _ => .notANumber

def sub (a b : Number) : Number := a.add b.neg

def mul : Number → Number → Number
  | .finite a _, .finite b _ =>
    ofQuotient ((a < 0) != (b < 0)) (a.natAbs * b.natAbs) unit
  | .finite a _, .infinite negative =>
    if a = 0 then .notANumber else .infinite ((a < 0) != negative)
  | .infinite negative, .finite b _ =>
    if b = 0 then .notANumber else .infinite (negative != (b < 0))
  | .infinite a, .infinite b => .infinite (a != b)
  | _, _ => .notANumber

/-- Division. By zero it is infinite, or no number for zero itself. -/
def div : Number → Number → Number
  | .finite a _, .finite b _ =>
    if b = 0 then (if a = 0 then .notANumber else .infinite (a < 0))
    else ofQuotient ((a < 0) != (b < 0)) (a.natAbs * unit) b.natAbs
  | .finite .., .infinite _ => 0
  | .infinite negative, .finite b _ => .infinite (negative != (b < 0))
  | _, _ => .notANumber

instance : Neg Number := ⟨neg⟩
instance : Add Number := ⟨add⟩
instance : Sub Number := ⟨sub⟩
instance : Mul Number := ⟨mul⟩
instance : Div Number := ⟨div⟩
instance : Inhabited Number := ⟨0⟩

end Number

end Harbormaster
