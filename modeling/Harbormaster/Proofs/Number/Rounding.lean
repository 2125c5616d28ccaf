import Mathlib.Tactic.Linarith
import Harbormaster.Number.Basic

/-!
Rounding leaves alone what is representable already: a count of units that fits
comes back from `ofUnits` unchanged. Arithmetic on whole numbers is therefore
exact for as long as its results fit. Nothing is said here about how far a count
that does not fit is moved.
-/

namespace Harbormaster.Number

/-- A significand of at most 53 bits has no set bits among the excess ones of its
magnitude, so rounding has nothing to take off. -/
theorem pow_excessBits_dvd {significand : Nat} (hs : significand ≤ 2 ^ 53) (shift : Nat) :
    2 ^ excessBits (significand * 2 ^ shift) ∣ significand * 2 ^ shift := by
  rcases Nat.eq_zero_or_pos significand with rfl | hpos
  · simp
  rcases Nat.lt_or_eq_of_le hs with hlt | rfl
  · have hne : significand * 2 ^ shift ≠ 0 := by positivity
    have hbound : significand * 2 ^ shift < 2 ^ (53 + shift) := by
      rw [Nat.pow_add]
      exact Nat.mul_lt_mul_of_pos_right hlt (Nat.two_pow_pos shift)
    have hlog := (Nat.log2_lt hne).mpr hbound
    have hexcess : excessBits (significand * 2 ^ shift) ≤ shift := by
      unfold excessBits
      omega
    exact (Nat.pow_dvd_pow 2 hexcess).trans (Nat.dvd_mul_left _ _)
  · rw [← Nat.pow_add]
    apply Nat.pow_dvd_pow
    unfold excessBits
    rw [Nat.log2_two_pow]
    omega

theorem roundQuotient_of_fits {units : Int} (h : Fits units) :
    roundQuotient units.natAbs 1 = units.natAbs := by
  obtain ⟨significand, shift, hs, hunits, -⟩ := h
  rw [hunits, Nat.shiftLeft_eq]
  rw [Nat.shiftLeft_eq, Nat.one_mul] at hs
  have hdvd := pow_excessBits_dvd hs shift
  generalize significand * 2 ^ shift = magnitude at hdvd ⊢
  have hstep : 0 < 2 ^ excessBits magnitude := Nat.two_pow_pos _
  simp only [roundQuotient, roundedSignificand, roundingStep, Nat.div_one, Nat.shiftLeft_eq,
    Nat.one_mul, Nat.mod_eq_zero_of_dvd hdvd]
  -- no remainder, so nothing is rounded up
  rw [if_neg (by omega), Nat.div_mul_cancel hdvd]

/-- Rounding moves no number that can be represented. -/
theorem ofUnits_of_fits {units : Int} (h : Fits units) : ofUnits units = .finite units h := by
  have hround := roundQuotient_of_fits h
  obtain ⟨-, -, -, -, hsmall⟩ := id h
  unfold ofUnits ofQuotient
  rw [dif_pos (by rwa [hround])]
  congr 1
  rw [hround]
  simp only [decide_eq_true_eq]
  split <;> omega

theorem fits_zero : Fits 0 := ⟨0, 0, by decide, by decide, by decide +kernel⟩

theorem zero_eq : (0 : Number) = .finite 0 fits_zero := by
  change ofUnits (((0 : Nat) : Int) * unit) = _
  simpa using ofUnits_of_fits fits_zero

/-- Zero adds nothing, also beyond the range in which whole numbers are exact. -/
theorem zero_add (n : Number) : 0 + n = n := by
  rw [zero_eq]
  cases n with
  | finite units fits =>
    change ofUnits (0 + units) = _
    rw [Int.zero_add, ofUnits_of_fits fits]
  | infinite negative => rfl
  | notANumber => rfl

/-- A number that is one equals itself. -/
theorem eq_self {n : Number} (h : n.isNaN = false) : n.eq n = true := by
  cases n with
  | finite units fits => simp [eq]
  | infinite negative => simp [eq]
  | notANumber => cases h

end Harbormaster.Number
