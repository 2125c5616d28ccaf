import Harbormaster.Proofs.Value.Solid

/-!
Plain values, which are what cells come to hold in a run. A cell may hold a scalar or
a list of scalars; a document puts the marker of nothing in the place of a number that
is not finite, and so a plain value is a scalar, that marker or a list of those. A
document keeps plain values plain, but as they are it keeps only those that are solid.
-/

namespace Harbormaster

namespace Value

theorem text?_eq_some_iff {v : Value} {s : String} : v.text? = some s ↔ v = .text s := by
  cases v <;> simp [text?]

theorem number?_eq_some_iff {v : Value} {n : Number} : v.number? = some n ↔ v = .number n := by
  cases v <;> simp [number?]

theorem list?_eq_some_iff {v : Value} {items : List Value} :
    v.list? = some items ↔ v = .list items := by
  cases v <;> simp [list?]

def isPlainItem (v : Value) : Bool := v.isScalar || v.isAbsent

/-- Whether a value is a scalar, the marker of nothing or a list of those. -/
def isPlain : Value → Bool
  | list items => items.all isPlainItem
  | v => v.isPlainItem

theorem isPlainItem_of_isScalar {v : Value} (h : v.isScalar = true) : v.isPlainItem = true := by
  simp [isPlainItem, h]

theorem isPlain_of_isStorable {v : Value} (h : v.isStorable = true) : v.isPlain = true := by
  cases v with
  | list items =>
    have hitems : ∀ item ∈ items, item.isScalar = true := List.all_eq_true.mp h
    exact List.all_eq_true.mpr fun item hitem => isPlainItem_of_isScalar (hitems item hitem)
  | boolean | number | text => rfl
  | missing | absent | record | native | fallback => cases h

theorem isPlain_of_isPlainItem {v : Value} (h : v.isPlainItem = true) : v.isPlain = true := by
  cases v with
  | list => cases h
  | missing | absent | boolean | number | text | record | native | fallback => exact h

theorem hasForm_of_isPlain {v : Value} (h : v.isPlain = true) : v.hasForm = true := by
  cases v with
  | missing | native | fallback => cases h
  | absent | boolean | number | text | list | record => rfl

theorem isPlainItem_stored {v : Value} (h : v.isPlainItem = true) :
    v.stored.isPlainItem = true := by
  cases v with
  | number n =>
    unfold stored
    split
    · rfl
    · rfl
  | absent | boolean | text => rfl
  | missing | list | record | native | fallback => cases h

theorem marked_of_isPlainItem {v : Value} (h : v.isPlainItem = true) : v.marked = v := by
  cases v with
  | missing | native | fallback => cases h
  | absent | boolean | number | text | list | record => rfl

theorem all_isPlainItem_storedItems {items : List Value} (h : items.all isPlainItem = true) :
    (storedItems items).all isPlainItem = true := by
  induction items with
  | nil => rfl
  | cons v rest ih =>
    rw [List.all_cons, Bool.and_eq_true] at h
    have hv := isPlainItem_stored h.1
    rw [storedItems, List.all_cons, marked_of_isPlainItem hv, hv, ih h.2]
    rfl

theorem isPlain_stored {v : Value} (h : v.isPlain = true) : v.stored.isPlain = true := by
  cases v with
  | list items => exact all_isPlainItem_storedItems h
  | missing | absent | boolean | number | text | record | native | fallback =>
    exact isPlain_of_isPlainItem (isPlainItem_stored h)

theorem isPlain_of_kept? {v kept : Value} (h : v.isPlain = true) (hkept : v.kept? = some kept) :
    kept.isPlain = true := by
  have hstored : kept = v.stored := by
    cases v with
    | missing | native | fallback => cases h
    | absent | boolean | number | text | list | record =>
      cases hkept
      rfl
  rw [hstored]
  exact isPlain_stored h

theorem all_isScalar_of_solidItems {items : List Value} (hplain : items.all isPlainItem = true)
    (hsolid : solidItems items = true) : items.all isScalar = true := by
  induction items with
  | nil => rfl
  | cons v rest ih =>
    rw [List.all_cons, Bool.and_eq_true] at hplain
    rw [solidItems, Bool.and_eq_true] at hsolid
    rw [List.all_cons, ih hplain.2 hsolid.2, Bool.and_true]
    cases v with
    | boolean | number | text => rfl
    | missing | absent | native | fallback => cases hsolid.1
    | list | record => cases hplain.1

/-- There is no marker in a solid value, so that a cell may hold it if it is plain. -/
theorem isStorable_of_isPlain {v : Value} (hplain : v.isPlain = true) (hsolid : v.isSolid = true) :
    v.isStorable = true := by
  cases v with
  | list items =>
    unfold isSolid at hsolid
    exact all_isScalar_of_solidItems hplain hsolid
  | boolean | number | text => rfl
  | missing | absent | native | fallback => cases hsolid
  | record => cases hplain

theorem solidEntries_eq_true_iff (entries : List (String × Value)) :
    solidEntries entries = true ↔ ∀ entry ∈ entries, entry.2.isSolid = true := by
  induction entries with
  | nil => simp [solidEntries]
  | cons entry rest ih =>
    obtain ⟨name, v⟩ := entry
    simp [solidEntries, ih]

theorem isSolid_of_stored_eq {v : Value} (hscalar : v.isScalar = true) (h : v.stored = v) :
    v.isSolid = true := by
  cases v with
  | boolean | text => rfl
  | missing | absent | list | record | native | fallback => cases hscalar
  | number n =>
    unfold stored at h
    split at h
    · rename_i hn
      exact hn
    · cases h

theorem solidItems_of_storedItems_eq {items : List Value} (hscalars : items.all isScalar = true)
    (h : storedItems items = items) : solidItems items = true := by
  induction items with
  | nil => rfl
  | cons v rest ih =>
    rw [List.all_cons, Bool.and_eq_true] at hscalars
    rw [storedItems, List.cons.injEq] at h
    obtain ⟨hfirst, hrest⟩ := h
    have hplain := isPlainItem_stored (isPlainItem_of_isScalar hscalars.1)
    rw [marked_of_isPlainItem hplain] at hfirst
    rw [solidItems, isSolid_of_stored_eq hscalars.1 hfirst, ih hscalars.2 hrest]
    rfl

/-- Whatever a cell may hold and a document keeps as it is, is solid. -/
theorem isSolid_of_kept? {v : Value} (hstorable : v.isStorable = true)
    (hkept : v.kept? = some v) : v.isSolid = true := by
  cases v with
  | missing | absent | record | native | fallback => cases hstorable
  | boolean | number | text => exact isSolid_of_stored_eq hstorable (Option.some.inj hkept)
  | list items =>
    have hstored : list (storedItems items) = list items := Option.some.inj hkept
    unfold isSolid
    exact solidItems_of_storedItems_eq hstorable (Value.list.inj hstored)

/-- What a document keeps has a form. -/
theorem hasForm_stored {v : Value} (h : v.hasForm = true) : v.stored.hasForm = true := by
  cases v with
  | missing | fallback => cases h
  | number n =>
    unfold stored
    split <;> rfl
  | native thing => cases thing with
    | root => rfl
    | method | listMethod => cases h
  | absent | boolean | text | list => rfl
  | record members => rfl

mutual

/-- What a document holds, a document keeps as it is. -/
theorem stored_stored (v : Value) : v.stored.stored = v.stored := by
  cases v with
  | missing | absent | boolean | text | fallback => rfl
  | native thing => cases thing with
    | root | method | listMethod => rfl
  | number n =>
    by_cases hn : n.isFinite = true
    · simp [stored, hn]
    · simp [stored, hn]
  | list items =>
    have hitems := storedItems_storedItems items
    simp only [stored, hitems]
  | record members =>
    obtain ⟨entries⟩ := members
    have hentries := storedEntries_storedEntries entries
    simp only [stored, hentries]

theorem storedItems_storedItems (items : List Value) :
    storedItems (storedItems items) = storedItems items := by
  cases items with
  | nil => rfl
  | cons v rest =>
    have hfirst := stored_stored v
    have hrest := storedItems_storedItems rest
    have hmarked : v.stored.marked.stored.marked = v.stored.marked := by
      cases hv : v.stored with
      | missing => rfl
      | absent | boolean | number | text | list | record | native | fallback =>
        rw [hv] at hfirst
        exact congrArg marked hfirst
    simp only [storedItems, hmarked, hrest]

theorem storedEntries_storedEntries (entries : List (String × Value)) :
    storedEntries (storedEntries entries) = storedEntries entries := by
  cases entries with
  | nil => rfl
  | cons entry rest =>
    obtain ⟨name, v⟩ := entry
    have hfirst := stored_stored v
    have hrest := storedEntries_storedEntries rest
    rw [storedEntries]
    by_cases hform : v.hasForm = true
    · rw [if_pos hform, storedEntries, if_pos (hasForm_stored hform), hfirst, hrest]
    · rw [if_neg hform, hrest]

end

end Value

end Harbormaster
