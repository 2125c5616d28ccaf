import Harbormaster.Proofs.Number.Rounding

/-!
Whole numbers. Up to `2 ^ 53` every one of them is a number of its own, and sums are
exact as long as they stay there. One step further they are not: a count that grows
beyond stands still.
-/

namespace Harbormaster.Number

def exactLimit : Nat := 2 ^ 53

variable {m n : Nat}

theorem shiftLeft_lt_shiftLeft {n a b c : Nat} (hn : n ≤ 1 <<< a) (hlt : a + b < c) :
    n <<< b < 1 <<< c := by
  rw [Nat.shiftLeft_eq, Nat.one_mul] at hn
  rw [Nat.shiftLeft_eq, Nat.shiftLeft_eq, Nat.one_mul]
  calc n * 2 ^ b ≤ 2 ^ a * 2 ^ b := Nat.mul_le_mul_right _ hn
    _ = 2 ^ (a + b) := (Nat.pow_add 2 a b).symm
    _ < 2 ^ c := Nat.pow_lt_pow_right Nat.one_lt_two hlt

theorem mul_one_shiftLeft (n b : Nat) : n * 1 <<< b = n <<< b := by
  rw [Nat.shiftLeft_eq, Nat.shiftLeft_eq, Nat.one_mul]

theorem one_shiftLeft_pos (b : Nat) : 0 < 1 <<< b := by
  rw [Nat.one_shiftLeft]
  exact Nat.two_pow_pos b

theorem mul_unit (n : Nat) : n * unit = n <<< 1074 := mul_one_shiftLeft n 1074

theorem unit_pos : 0 < unit := one_shiftLeft_pos 1074

theorem fits_whole (h : n ≤ exactLimit) : Fits ((n : Int) * unit) := by
  have hmagnitude : ((n : Int) * unit).natAbs = n <<< 1074 := by
    rw [Int.natAbs_mul, Int.natAbs_natCast, Int.natAbs_natCast, mul_unit]
  have hsignificand : n ≤ 1 <<< 53 := h.trans_eq (Nat.one_shiftLeft 53).symm
  exact ⟨n, 1074, hsignificand, hmagnitude,
    hmagnitude ▸ shiftLeft_lt_shiftLeft hsignificand (by decide)⟩

theorem ofNat_eq_finite (h : n ≤ exactLimit) : ofNat n = .finite (n * unit) (fits_whole h) :=
  ofUnits_of_fits (fits_whole h)

/-- Sums of whole numbers are exact up to the limit, and rounded as a whole beyond. -/
theorem ofNat_add (hm : m ≤ exactLimit) (hn : n ≤ exactLimit) :
    ofNat m + ofNat n = ofNat (m + n) := by
  have hsum : ((m + n : Nat) : Int) * unit = m * unit + n * unit := by
    rw [Nat.cast_add, Int.add_mul]
  rw [ofNat_eq_finite hm, ofNat_eq_finite hn]
  unfold ofNat ofInt
  rw [hsum]
  rfl

/-- A whole number can be told from its digits. -/
theorem repr_inj (h : m.repr = n.repr) : m = n := by
  have hvalue := congrArg (fun digits => Nat.ofDigitChars 10 digits.toList 0) h
  simpa [Nat.toList_repr, Nat.ofDigitChars_toDigits] using hvalue

theorem isFinite_ofNat (h : n ≤ exactLimit) : (ofNat n).isFinite = true := by
  rw [ofNat_eq_finite h]
  rfl

end Harbormaster.Number
