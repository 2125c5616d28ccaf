import Harbormaster.Number.Basic

/-!
Finite numbers by their counts of units. Two finite numbers with one count are the
same, and order, maximum and minimum are those of the counts. Arithmetic that rounds
is not treated here.
-/

namespace Harbormaster.Number

def units : Number → Int
  | .finite units _ => units
  | _ => 0

variable {a b : Number}

theorem eq_of_units (ha : a.isFinite = true) (hb : b.isFinite = true) (h : a.units = b.units) :
    a = b := by
  cases a with
  | infinite | notANumber => cases ha
  | finite first =>
    cases b with
    | infinite | notANumber => cases hb
    | finite second =>
      have hunits : first = second := h
      subst hunits
      rfl

theorem lt_iff_units (ha : a.isFinite = true) (hb : b.isFinite = true) :
    a.lt b = true ↔ a.units < b.units := by
  cases a with
  | infinite | notANumber => cases ha
  | finite first =>
    cases b with
    | infinite | notANumber => cases hb
    | finite second => exact decide_eq_true_iff

theorem le_iff_units (ha : a.isFinite = true) (hb : b.isFinite = true) :
    a.le b = true ↔ a.units ≤ b.units := by
  cases a with
  | infinite | notANumber => cases ha
  | finite first =>
    cases b with
    | infinite | notANumber => cases hb
    | finite second => exact decide_eq_true_iff

theorem isNaN_of_isFinite (ha : a.isFinite = true) : a.isNaN = false := by
  cases a with
  | infinite | notANumber => cases ha
  | finite => rfl

theorem max_of_finite (ha : a.isFinite = true) (hb : b.isFinite = true) :
    a.max b = if a.units < b.units then b else a := by
  unfold Number.max
  rw [isNaN_of_isFinite ha, isNaN_of_isFinite hb]
  simp only [Bool.or_self, Bool.false_eq_true, if_false, lt_iff_units ha hb]

theorem min_of_finite (ha : a.isFinite = true) (hb : b.isFinite = true) :
    a.min b = if b.units < a.units then b else a := by
  unfold Number.min
  rw [isNaN_of_isFinite ha, isNaN_of_isFinite hb]
  simp only [Bool.or_self, Bool.false_eq_true, if_false, lt_iff_units hb ha]

theorem isFinite_max (ha : a.isFinite = true) (hb : b.isFinite = true) :
    (a.max b).isFinite = true := by
  rw [max_of_finite ha hb]
  split
  · exact hb
  · exact ha

theorem isFinite_min (ha : a.isFinite = true) (hb : b.isFinite = true) :
    (a.min b).isFinite = true := by
  rw [min_of_finite ha hb]
  split
  · exact hb
  · exact ha

theorem units_max (ha : a.isFinite = true) (hb : b.isFinite = true) :
    (a.max b).units = Max.max a.units b.units := by
  rw [max_of_finite ha hb]
  split <;> omega

theorem units_min (ha : a.isFinite = true) (hb : b.isFinite = true) :
    (a.min b).units = Min.min a.units b.units := by
  rw [min_of_finite ha hb]
  split <;> omega

end Harbormaster.Number
