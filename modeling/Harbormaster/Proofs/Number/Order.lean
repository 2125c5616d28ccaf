import Harbormaster.Number.Basic

/-!
The order of numbers. Among numbers that are some it is a total preorder; what is
no number is neither above nor below anything, and compared through it two
numbers may stand in any order.
-/

namespace Harbormaster.Number

/-- Whether one number is not below a second one carries over to a third one. -/
theorem lt_eq_false_trans {a b c : Number} (hb : b.isNaN = false) (hab : a.lt b = false)
    (hbc : b.lt c = false) : a.lt c = false := by
  cases b with
  | notANumber => cases hb
  | finite units fits =>
    cases a with
    | notANumber => rfl
    | infinite negative =>
      cases c with
      | notANumber => rfl
      | finite => exact hab
      | infinite other =>
        simp only [lt] at hab hbc ⊢
        simp [hab]
    | finite first =>
      cases c with
      | notANumber => rfl
      | finite third =>
        simp only [lt, decide_eq_false_iff_not] at hab hbc ⊢
        omega
      | infinite => exact hbc
  | infinite negative =>
    cases a with
    | notANumber => rfl
    | finite =>
      cases c with
      | notANumber => rfl
      | finite => simp_all [lt]
      | infinite => simp_all [lt]
    | infinite =>
      cases c with
      | notANumber => rfl
      | finite => simp_all [lt]
      | infinite => simp_all [lt]

/-- Of two numbers one is not below the other. -/
theorem lt_asymm (a b : Number) : (!a.lt b || !b.lt a) = true := by
  cases a with
  | notANumber => rfl
  | finite first =>
    cases b with
    | notANumber => rfl
    | finite second =>
      simp only [lt, Bool.or_eq_true, Bool.not_eq_true', decide_eq_false_iff_not]
      omega
    | infinite negative => cases negative <;> rfl
  | infinite negative =>
    cases b with
    | notANumber => cases negative <;> rfl
    | finite => cases negative <;> rfl
    | infinite other => cases negative <;> cases other <;> rfl

/-- Numbers are equal only if they are one number, and one that is some. -/
theorem eq_iff {a b : Number} : a.eq b = true ↔ a = b ∧ a.isNaN = false := by
  cases a with
  | notANumber => simp [eq, isNaN]
  | finite =>
    cases b with
    | finite | infinite | notANumber => simp [eq, isNaN]
  | infinite =>
    cases b with
    | finite | infinite | notANumber => simp [eq, isNaN]

variable {a b c : Number}

theorem le_of_lt (h : a.lt b = true) : a.le b = true := by
  cases a with
  | notANumber => cases h
  | finite =>
    cases b with
    | notANumber => cases h
    | infinite => exact h
    | finite =>
      simp only [lt, le, decide_eq_true_eq] at h ⊢
      omega
  | infinite negative =>
    cases b with
    | notANumber => cases negative <;> cases h
    | finite => exact h
    | infinite other =>
      simp only [lt, le, Bool.and_eq_true, Bool.or_eq_true] at h ⊢
      exact .inl h.1

/-- Of two numbers that can be compared, one is below the other or at least as large. -/
theorem le_of_lt_eq_false (ha : a.isNaN = false) (hb : b.isNaN = false) (h : a.lt b = false) :
    b.le a = true := by
  cases a with
  | notANumber => cases ha
  | finite =>
    cases b with
    | notANumber => cases hb
    | infinite => simpa [lt, le] using h
    | finite =>
      simp only [lt, le, decide_eq_true_eq, decide_eq_false_iff_not] at h ⊢
      omega
  | infinite negative =>
    cases b with
    | notANumber => cases hb
    | finite => simpa [lt, le] using h
    | infinite other => cases negative <;> cases other <;> simp_all [lt, le]

theorem le_refl (h : a.isNaN = false) : a.le a = true := by
  cases hbelow : a.lt a with
  | true => exact le_of_lt hbelow
  | false => exact le_of_lt_eq_false h h hbelow

/-- What is no number is in order with nothing. -/
theorem isNaN_of_le (h : a.le b = true) : a.isNaN = false ∧ b.isNaN = false := by
  cases a with
  | notANumber => cases h
  | finite | infinite =>
    cases b with
    | notANumber => cases h
    | finite | infinite => exact ⟨rfl, rfl⟩

@[simp] theorem isNaN_max (a b : Number) : (a.max b).isNaN = (a.isNaN || b.isNaN) := by
  unfold Number.max
  cases ha : a.isNaN with
  | true => rfl
  | false =>
    cases hb : b.isNaN with
    | true => rfl
    | false =>
      simp only [Bool.or_self, Bool.false_eq_true, if_false]
      split <;> assumption

@[simp] theorem isNaN_min (a b : Number) : (a.min b).isNaN = (a.isNaN || b.isNaN) := by
  unfold Number.min
  cases ha : a.isNaN with
  | true => rfl
  | false =>
    cases hb : b.isNaN with
    | true => rfl
    | false =>
      simp only [Bool.or_self, Bool.false_eq_true, if_false]
      split <;> assumption

theorem le_max_right (ha : a.isNaN = false) (hb : b.isNaN = false) : b.le (a.max b) = true := by
  unfold Number.max
  rw [ha, hb]
  cases hbelow : a.lt b with
  | true => exact le_refl hb
  | false => exact le_of_lt_eq_false ha hb hbelow

theorem min_le_right (ha : a.isNaN = false) (hb : b.isNaN = false) : (a.min b).le b = true := by
  unfold Number.min
  rw [ha, hb]
  cases hbelow : b.lt a with
  | true => exact le_refl hb
  | false => exact le_of_lt_eq_false hb ha hbelow

theorem le_min (ha : c.le a = true) (hb : c.le b = true) : c.le (a.min b) = true := by
  unfold Number.min
  rw [(isNaN_of_le ha).2, (isNaN_of_le hb).2]
  cases b.lt a with
  | true => exact hb
  | false => exact ha

end Harbormaster.Number
