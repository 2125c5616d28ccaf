import Harbormaster.Number.Decimal
import Harbormaster.Proofs.Number.Whole

/-!
Integers among the numbers. Those up to `2 ^ 53` on either side of zero are numbers of their
own, and are written in their digits below that. A difference of two integers is computed
exactly and rounded once, and rounding never passes what can be represented: so a difference
that is too large to be told exactly is still known to be large.
-/

namespace Harbormaster.Number

variable {m n : Int} {count : Nat} {x y : Number}

section Exact

theorem natAbs_mul_unit (n : Int) : (n * unit).natAbs = n.natAbs * unit := by
  rw [Int.natAbs_mul, Int.natAbs_natCast]

theorem mul_unit_neg_iff : n * unit < 0 ↔ n < 0 := by
  constructor
  · intro hproduct
    by_contra hn
    have hpos := Int.mul_nonneg (Int.not_lt.mp hn) (Int.natCast_nonneg unit)
    omega
  · exact fun hn => Int.mul_neg_of_neg_of_pos hn (Int.natCast_pos.mpr unit_pos)

theorem fits_integer (h : n.natAbs ≤ exactLimit) : Fits (n * unit) := by
  have hfits := fits_whole h
  unfold Fits at hfits ⊢
  rw [natAbs_mul_unit] at hfits ⊢
  rwa [Int.natAbs_natCast] at hfits

theorem ofInt_eq_finite (h : n.natAbs ≤ exactLimit) :
    ofInt n = .finite (n * unit) (fits_integer h) :=
  ofUnits_of_fits (fits_integer h)

theorem unit_ne_zero : (unit : Int) ≠ 0 := by
  have hpos := unit_pos
  omega

theorem toInt?_finite {units : Int} {fits : Fits units} :
    (finite units fits).toInt? = some n ↔ units = n * unit := by
  simp only [toInt?]
  constructor
  · intro h
    split at h
    · rename_i hwhole
      rw [← Option.some.inj h]
      exact (Int.ediv_mul_cancel (Int.dvd_of_emod_eq_zero hwhole)).symm
    · cases h
  · rintro rfl
    rw [Int.mul_emod_left, if_pos rfl, Int.mul_ediv_cancel _ unit_ne_zero]

theorem toInt?_ofInt (h : n.natAbs ≤ exactLimit) : (ofInt n).toInt? = some n := by
  rw [ofInt_eq_finite h]
  exact toInt?_finite.mpr rfl

theorem toInt?_ofNat (h : count ≤ exactLimit) : (ofNat count).toInt? = some (count : Int) :=
  toInt?_ofInt h

/-- A number that is an integer is as many units as the integer is ones. -/
theorem exists_finite_of_toInt? (h : x.toInt? = some n) :
    ∃ fits : Fits (n * unit), x = .finite (n * unit) fits := by
  cases x with
  | finite units fits =>
    obtain rfl := toInt?_finite.mp h
    exact ⟨fits, rfl⟩
  | infinite | notANumber => cases h

/-- A number that stands for a whole number is the one that is nearest to it. -/
theorem eq_ofNat_of_toInt? (h : x.toInt? = some (count : Int)) : x = ofNat count := by
  obtain ⟨fits, rfl⟩ := exists_finite_of_toInt? h
  exact (ofUnits_of_fits fits).symm

theorem eq_iff_of_toInt? (hx : x.toInt? = some m) (hy : y.toInt? = some n) :
    x.eq y = true ↔ m = n := by
  obtain ⟨_, rfl⟩ := exists_finite_of_toInt? hx
  obtain ⟨_, rfl⟩ := exists_finite_of_toInt? hy
  simp [eq, unit_pos.ne']

theorem lt_iff_of_toInt? (hx : x.toInt? = some m) (hy : y.toInt? = some n) :
    x.lt y = true ↔ m < n := by
  obtain ⟨_, rfl⟩ := exists_finite_of_toInt? hx
  obtain ⟨_, rfl⟩ := exists_finite_of_toInt? hy
  simp [lt, Int.mul_lt_mul_right (Int.natCast_pos.mpr unit_pos)]

/-- The difference of two integers is the number that is nearest to it. -/
theorem sub_of_toInt? (hx : x.toInt? = some m) (hy : y.toInt? = some n) :
    x - y = ofInt (m - n) := by
  obtain ⟨_, rfl⟩ := exists_finite_of_toInt? hx
  obtain ⟨_, rfl⟩ := exists_finite_of_toInt? hy
  change ofUnits (m * unit + -(n * unit)) = ofUnits ((m - n) * unit)
  rw [Int.sub_mul, Int.sub_eq_add_neg]

end Exact

section Far

/-- Rounding passes no magnitude that can be represented. -/
theorem le_roundQuotient {significand shift magnitude : Nat} (hs : significand ≤ exactLimit)
    (h : significand <<< shift ≤ magnitude) :
    significand <<< shift ≤ roundQuotient magnitude 1 := by
  rw [Nat.shiftLeft_eq] at h ⊢
  let excess := excessBits magnitude
  let quotient := magnitude / 2 ^ excess
  have hround : quotient * 2 ^ excess ≤ roundQuotient magnitude 1 := by
    simp only [roundQuotient, roundedSignificand, roundingStep, Nat.div_one, Nat.shiftLeft_eq,
      Nat.one_mul]
    refine Nat.mul_le_mul_right _ ?_
    split
    · exact Nat.le_succ _
    · exact Nat.le_refl _
  refine Nat.le_trans ?_ hround
  rcases Nat.lt_or_ge shift excess with hshort | hlong
  · -- the magnitude has more than 53 bits, so its leading ones alone are enough
    have hbits : magnitude.log2 = 52 + excess := by
      have hexcess : excess = magnitude.log2 + 1 - 53 := rfl
      omega
    have hne : magnitude ≠ 0 := by
      rintro rfl
      rw [Nat.log2_zero] at hbits
      omega
    have hquotient : 2 ^ 52 ≤ quotient := by
      rw [Nat.le_div_iff_mul_le (Nat.two_pow_pos _), ← Nat.pow_add, ← hbits]
      exact Nat.log2_self_le hne
    calc significand * 2 ^ shift ≤ 2 ^ 53 * 2 ^ (excess - 1) :=
          Nat.mul_le_mul hs (Nat.pow_le_pow_right Nat.two_pos (by omega))
      _ = 2 ^ 52 * 2 ^ excess := by
          rw [← Nat.pow_add, ← Nat.pow_add]
          congr 1
          omega
      _ ≤ quotient * 2 ^ excess := Nat.mul_le_mul_right _ hquotient
  · have hsplit : significand * 2 ^ shift = significand * 2 ^ (shift - excess) * 2 ^ excess := by
      rw [Nat.mul_assoc, ← Nat.pow_add, Nat.sub_add_cancel hlong]
    rw [hsplit] at h ⊢
    exact Nat.mul_le_mul_right _ ((Nat.le_div_iff_mul_le (Nat.two_pow_pos _)).mpr h)

/-- An integer that cannot be told exactly is still far from zero. -/
theorem exactLimit_le_of_toInt?_ofInt (hfar : exactLimit < n.natAbs)
    (h : (ofInt n).toInt? = some m) : exactLimit ≤ m.natAbs := by
  have hlarge : exactLimit * unit ≤ roundQuotient (n * unit).natAbs 1 := by
    have hmagnitude : exactLimit * unit ≤ (n * unit).natAbs := by
      rw [natAbs_mul_unit]
      exact Nat.mul_le_mul_right _ hfar.le
    rw [mul_unit] at hmagnitude ⊢
    exact le_roundQuotient (Nat.le_refl _) hmagnitude
  unfold ofInt ofUnits ofQuotient at h
  split at h
  · have hunits := toInt?_finite.mp h
    generalize roundQuotient (n * unit).natAbs 1 = rounded at hlarge hunits
    have hmagnitude : m.natAbs * unit = rounded := by
      rw [← natAbs_mul_unit, ← hunits]
      split <;> simp
    rw [← hmagnitude] at hlarge
    exact Nat.le_of_mul_le_mul_right hlarge unit_pos
  · cases h

end Far

section Texts

/-- Below the limit an integer is written in its digits. -/
theorem toText_ofInt (h : n.natAbs < exactLimit) : (ofInt n).toText = toString n := by
  have hwhole : n.natAbs * unit % unit = 0 ∧ n.natAbs < 1 <<< 53 := by
    rw [Nat.mul_mod_left, Nat.one_shiftLeft]
    exact ⟨rfl, h⟩
  rw [ofInt_eq_finite h.le, toText]
  simp only [natAbs_mul_unit, Nat.mul_div_cancel _ unit_pos, hwhole, and_self, if_true,
    mul_unit_neg_iff]
  cases n with
  | ofNat count => rfl
  | negSucc count => simp [toString, Int.repr, signed]

/-- And so is a whole number. -/
theorem toText_ofNat (h : count < exactLimit) : (ofNat count).toText = count.repr :=
  toText_ofInt h

end Texts

end Harbormaster.Number
