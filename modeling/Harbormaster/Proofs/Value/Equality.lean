import Harbormaster.Condition.Comparison
import Harbormaster.Proofs.Number.Order
import Harbormaster.Proofs.Value.Plain

/-!
Equality as conditions read it. Two values are the same exactly when they are one value once
the absent marker is read as `false`, except that what is no number is not the same as
anything, itself included. So among values without it equality is an equivalence, and even
with it symmetry and transitivity are left. Membership asks for an item that is the same, and
so it cannot tell the same values apart.
-/

namespace Harbormaster.Value

variable {a b c v : Value}

/-- Whether a value is no number, or a list with an item that is none. -/
def hasNaN : Value → Bool
  | list items => items.any isNaN
  | v => v.isNaN

/-- A value with the absent marker read as `false`. -/
def unmarked : Value → Value
  | absent => boolean false
  | v => v

/-- Items are the same as one another only if they are one item, and then each is the same as
itself. -/
theorem sameItem_iff : a.sameItem b = true ↔ a = b ∧ a.sameItem a = true := by
  cases a with
  | missing | absent | boolean | text | list | record | native | fallback =>
    cases b with
    | missing | absent | boolean | number | text | list | record | native | fallback =>
      simp [sameItem]
  | number n =>
    cases b with
    | number m => simp [sameItem, Number.eq_iff]
    | missing | absent | boolean | text | list | record | native | fallback => simp [sameItem]

theorem sameItems_iff {as bs : List Value} :
    sameItems as bs = true ↔ as = bs ∧ sameItems as as = true := by
  induction as generalizing bs with
  | nil =>
    cases bs with
    | nil | cons => simp [sameItems]
  | cons a as ih =>
    cases bs with
    | nil => simp [sameItems]
    | cons b bs =>
      simp only [sameItems, Bool.and_eq_true, List.cons.injEq]
      rw [sameItem_iff, ih]
      tauto

theorem unmarked_ne_absent (v : Value) : v.unmarked ≠ absent := by
  cases v with
  | missing | absent | boolean | number | text | list | record | native | fallback =>
    exact Value.noConfusion

/-- The absent marker is compared as `false` is. -/
theorem same_unmarked (a b : Value) : a.unmarked.same b.unmarked = a.same b := by
  cases a with
  | absent =>
    cases b with
    | boolean value => cases value <;> rfl
    | missing | absent | number | text | list | record | native | fallback => rfl
  | boolean value =>
    cases b with
    | absent => cases value <;> rfl
    | missing | boolean | number | text | list | record | native | fallback => rfl
  | missing | number | text | list | record | native | fallback =>
    cases b with
    | missing | absent | boolean | number | text | list | record | native | fallback => rfl

theorem same_eq_sameItem (ha : a ≠ absent) (hb : b ≠ absent) (hitem : a.list? = none) :
    a.same b = a.sameItem b := by
  cases a with
  | absent => exact absurd rfl ha
  | list => cases hitem
  | missing | boolean | number | text | record | native | fallback =>
    cases b with
    | absent => exact absurd rfl hb
    | missing | boolean | number | text | list | record | native | fallback => rfl

/-- Without the marker two values are the same only if they are one value. -/
theorem same_iff_of_ne_absent (ha : a ≠ absent) (hb : b ≠ absent) :
    a.same b = true ↔ a = b ∧ a.same a = true := by
  cases hitem : a.list? with
  | none =>
    rw [same_eq_sameItem ha hb hitem, same_eq_sameItem ha ha hitem]
    exact sameItem_iff
  | some as =>
    obtain rfl := list?_eq_some_iff.mp hitem
    cases b with
    | absent => exact absurd rfl hb
    | list bs => simpa [same] using sameItems_iff
    | missing | boolean | number | text | record | native | fallback => simp [same, sameItem]

theorem same_iff : a.same b = true ↔ a.unmarked = b.unmarked ∧ a.same a = true := by
  rw [← same_unmarked a b, ← same_unmarked a a]
  exact same_iff_of_ne_absent a.unmarked_ne_absent b.unmarked_ne_absent

theorem same_symm (h : a.same b = true) : b.same a = true := by
  obtain ⟨heq, hself⟩ := same_iff.mp h
  refine same_iff.mpr ⟨heq.symm, ?_⟩
  rwa [← same_unmarked, ← heq, same_unmarked]

theorem same_trans (hab : a.same b = true) (hbc : b.same c = true) : a.same c = true := by
  obtain ⟨heq, hself⟩ := same_iff.mp hab
  exact same_iff.mpr ⟨heq.trans (same_iff.mp hbc).1, hself⟩

/-- The same values cannot be told apart by comparing them with a third one. -/
theorem same_congr (h : a.same b = true) (c : Value) : a.same c = b.same c := by
  rw [Bool.eq_iff_iff]
  exact ⟨same_trans (same_symm h), same_trans h⟩

theorem sameItem_self_of_isPlainItem (h : v.isPlainItem = true) :
    v.sameItem v = !v.isNaN := by
  cases v with
  | missing | list | record | native | fallback => cases h
  | absent => rfl
  | boolean | text => simp [sameItem, isNaN]
  | number n =>
    rw [sameItem, isNaN, Bool.eq_iff_iff, Number.eq_iff]
    simp

theorem sameItems_self_of_isPlainItem {items : List Value}
    (h : items.all isPlainItem = true) : sameItems items items = !items.any isNaN := by
  induction items with
  | nil => rfl
  | cons item rest ih =>
    rw [List.all_cons, Bool.and_eq_true] at h
    rw [sameItems, sameItem_self_of_isPlainItem h.1, ih h.2, List.any_cons, Bool.not_or]

/-- A value of a cell, or the marker, is the same as itself unless it is no number or has an
item that is none. -/
theorem same_self (h : v.isPlain = true) : v.same v = !v.hasNaN := by
  cases v with
  | missing | record | native | fallback => cases h
  | absent => rfl
  | list items => exact sameItems_self_of_isPlainItem h
  | boolean | number | text => exact sameItem_self_of_isPlainItem h

/-- Membership does not tell the same values apart, whatever is looked through. -/
theorem isIn_congr (h : a.same b = true) (right : Value) :
    compareValues a .isIn right = compareValues b .isIn right := by
  have hsame : a.same = b.same := funext (same_congr h)
  unfold compareValues
  rw [hsame]

/-- Equality of values is coherent. Values that cells hold, and the marker, are the same
exactly when they are one value with the marker read as `false`, as long as what is no number
is not in them; so each of them is the same as itself. All values are the same in both
directions and along chains. Inequality is the complement, and membership is the same for the
same values and for every list. -/
theorem equality_is_coherent :
    (∀ a b : Value, a.isPlain = true → a.hasNaN = false →
      (a.same b = true ↔ a.unmarked = b.unmarked)) ∧
    (∀ v : Value, v.isPlain = true → (v.same v = true ↔ v.hasNaN = false)) ∧
    (∀ a b : Value, a.same b = b.same a) ∧
    (∀ a b c : Value, a.same b = true → b.same c = true → a.same c = true) ∧
    (∀ v : Value, absent.same v = true ↔ v = absent ∨ v = boolean false) ∧
    (∀ a b : Value, compareValues a .equal b = .ok (a.same b) ∧
      compareValues a .unequal b = .ok (!a.same b)) ∧
    ∀ a b : Value, a.same b = true →
      (∀ right, compareValues a .isIn right = compareValues b .isIn right) ∧
      ∀ items, ∃ found, compareValues a .isIn (.list items) = .ok found ∧
        compareValues b .isIn (.list items) = .ok found ∧
        (found = true ↔ ∃ item ∈ items, a.same item = true) := by
  refine ⟨?one, ?reflexive, ?symmetric, fun _ _ _ => same_trans, ?marker,
    fun _ _ => ⟨rfl, rfl⟩, ?membership⟩
  case one =>
    intro a b hplain hnumbers
    rw [same_iff, same_self hplain, hnumbers]
    simp
  case reflexive =>
    intro v hplain
    simp [same_self hplain]
  case symmetric =>
    intro a b
    rw [Bool.eq_iff_iff]
    exact ⟨same_symm, same_symm⟩
  case marker =>
    intro v
    cases v with
    | boolean value => cases value <;> simp [same]
    | missing | absent | number | text | list | record | native | fallback => simp [same]
  case membership =>
    intro a b hsame
    refine ⟨isIn_congr hsame, fun items => ⟨items.any a.same, rfl, ?_, List.any_eq_true⟩⟩
    rw [← isIn_congr hsame]
    rfl

/-- The marker is found in a list of `false`, as `false` is, although it is the same as
itself. -/
theorem absent_is_found_as_false :
    absent.isPlain = true ∧ absent.hasNaN = false ∧ absent.same (boolean false) = true ∧
      compareValues absent .isIn (.list [1, "dock", false]) = .ok true ∧
      compareValues (boolean false) .isIn (.list [1, "dock", false]) = .ok true ∧
      absent.same absent = true := by
  obtain ⟨hone, hself, -, -, -, -, hmembership⟩ := equality_is_coherent
  have hsame : absent.same (boolean false) = true := (hone absent false rfl rfl).mpr rfl
  have habsent : compareValues absent .isIn (.list [1, "dock", false]) = .ok true := rfl
  refine ⟨rfl, rfl, hsame, habsent, ?_, (hself absent rfl).mpr rfl⟩
  rw [← (hmembership absent false hsame).1, habsent]

end Harbormaster.Value
