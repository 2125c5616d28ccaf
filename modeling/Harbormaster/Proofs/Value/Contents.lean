import Harbormaster.Proofs.Record.Members
import Harbormaster.Proofs.Value.Plain

/-!
What values are made of in a run. Rules and inputs write scalars and lists of them, and
where a record or a list is asked for what it was never given it answers with what is native
or with what it falls back on. A document puts the marker of nothing in the place of a
scalar that it cannot write, so that in the long run the items are scalars or that marker,
but only scalars as long as every number is finite. What a value gives under a name is made
of the same items as the value.
-/

namespace Harbormaster

namespace Value

structure Items (item : Value → Bool) : Prop where
  scalar : ∀ {v}, isScalar v = true → item v = true
  plain : ∀ {v}, item v = true → isPlainItem v = true

theorem items_isScalar : Items isScalar := ⟨id, isPlainItem_of_isScalar⟩

theorem items_isPlainItem : Items isPlainItem := ⟨isPlainItem_of_isScalar, id⟩

mutual

/-- Whether there is nothing in a value but items of a kind, alone, in lists or in records,
and what was never given. -/
def isMadeOf (item : Value → Bool) : Value → Bool
  | list items => items.all item
  | record ⟨entries⟩ => entriesMadeOf item entries
  | missing | native _ => true
  | fallback base => base.isMadeOf item
  | v => item v

def entriesMadeOf (item : Value → Bool) : List (String × Value) → Bool
  | [] => true
  | (_, v) :: rest => v.isMadeOf item && entriesMadeOf item rest

end

end Value

def Record.MadeOf (item : Value → Bool) (r : Record Value) : Prop :=
  r.All fun v => v.isMadeOf item = true

theorem Record.MadeOf.get? {item : Value → Bool} {r : Record Value} {name : String} {v : Value}
    (h : r.MadeOf item) (hv : r.get? name = some v) : v.isMadeOf item = true :=
  h _ (mem_of_get? hv)

namespace Value

variable {item : Value → Bool} {v found : Value} {name : String} {r : Record Value}

theorem isMadeOf_record_iff : (record r).isMadeOf item = true ↔ r.MadeOf item := by
  obtain ⟨entries⟩ := r
  unfold Record.MadeOf Record.All
  rw [isMadeOf]
  induction entries with
  | nil => simp [entriesMadeOf]
  | cons entry rest ih => simp [entriesMadeOf, ih]

theorem isMadeOf_of_item (hitem : Items item) (h : item v = true) : v.isMadeOf item = true := by
  have hplain := hitem.plain h
  cases v with
  | absent | boolean | number | text => exact h
  | missing | list | record | native | fallback => cases hplain

theorem isMadeOf_of_isPlain (h : v.isPlain = true) : v.isMadeOf isPlainItem = true := by
  cases v with
  | list items => exact h
  | missing | absent | boolean | number | text | record | native | fallback =>
    exact isMadeOf_of_item items_isPlainItem h

theorem isMadeOf_of_isStorable (hitem : Items item) (h : v.isStorable = true) :
    v.isMadeOf item = true := by
  cases v with
  | list items =>
    have hitems : ∀ other ∈ items, isScalar other = true := List.all_eq_true.mp h
    exact List.all_eq_true.mpr fun other hother => hitem.scalar (hitems other hother)
  | missing | absent | boolean | number | text | record | native | fallback =>
    exact isMadeOf_of_item hitem (hitem.scalar h)

theorem isMadeOf_shared? (h : shared? name = some found) : found.isMadeOf item = true := by
  unfold shared? at h
  split at h
  · cases h
    rfl
  · split at h
    · cases h
      rfl
    · cases h

theorem isMadeOf_listed? (hitem : Items item) {items : List Value}
    (hitems : items.all item = true) (h : listed? items name = some found) :
    found.isMadeOf item = true := by
  unfold listed? at h
  split at h
  · exact isMadeOf_of_item hitem (List.all_eq_true.mp hitems found (List.mem_of_getElem? h))
  · split at h
    · cases h
      exact isMadeOf_of_item hitem (hitem.scalar rfl)
    · split at h
      · cases h
        rfl
      · cases h

/-- What a value gives under a name is made of the items of the value. -/
theorem isMadeOf_property? (hitem : Items item) (hv : v.isMadeOf item = true)
    (h : v.property? name = some found) : found.isMadeOf item = true := by
  cases v with
  | missing | absent => cases h
  | list items =>
    rcases Option.or_eq_some_iff.mp h with hlisted | ⟨-, hshared⟩
    · exact isMadeOf_listed? hitem hv hlisted
    · exact isMadeOf_shared? hshared
  | record r =>
    rcases Option.or_eq_some_iff.mp h with hheld | ⟨-, hshared⟩
    · exact (isMadeOf_record_iff.mp hv).get? hheld
    · exact isMadeOf_shared? hshared
  | boolean | number | text | native | fallback => exact isMadeOf_shared? h

mutual

/-- A document makes of plain items plain items. -/
theorem isMadeOf_stored (v : Value) (h : v.isMadeOf isPlainItem = true) :
    v.stored.isMadeOf isPlainItem = true := by
  match v with
  | missing | absent | boolean _ | text _ => exact h
  | number n =>
    unfold stored
    split <;> rfl
  | native .root => rfl
  | native (.method _) | native (.listMethod _) | fallback _ => rfl
  | list items => exact all_isPlainItem_storedItems h
  | record ⟨entries⟩ =>
    exact entriesMadeOf_stored entries h

theorem entriesMadeOf_stored (entries : List (String × Value))
    (h : entriesMadeOf isPlainItem entries = true) :
    entriesMadeOf isPlainItem (storedEntries entries) = true := by
  match entries with
  | [] => rfl
  | (name, v) :: rest =>
    rw [entriesMadeOf, Bool.and_eq_true] at h
    have hrest := entriesMadeOf_stored rest h.2
    rw [storedEntries]
    split
    · rw [entriesMadeOf, isMadeOf_stored v h.1, hrest]
      rfl
    · exact hrest

end

end Value

namespace Record

variable {item : Value → Bool} {r : Record Value} {name : String} {found value : Value}

theorem MadeOf.base (h : r.MadeOf item) : r.base.isMadeOf item = true := by
  unfold Record.base
  split
  · rename_i hbase
    have hmade := h.get? hbase
    rwa [Value.isMadeOf] at hmade
  · rfl

/-- What a record answers is made of what it holds. -/
theorem MadeOf.find? (hitem : Value.Items item) (h : r.MadeOf item)
    (hfound : r.find? name = some found) : found.isMadeOf item = true := by
  unfold Record.find? at hfound
  split at hfound
  · split at hfound
    · rename_i base hbase
      have hmade := h.get? hbase
      rw [Value.isMadeOf] at hmade
      unfold Value.given? at hfound
      split at hfound
      · cases hfound
      · cases hfound
      · cases hfound
        exact hmade
    · rename_i hown
      cases hfound
      exact h.get? hown
    · cases hfound
      rfl
  · rcases Option.or_eq_some_iff.mp hfound with hheld | ⟨-, hinherited⟩
    · exact h.get? hheld
    · exact Value.isMadeOf_property? hitem h.base hinherited

theorem MadeOf.answer (hitem : Value.Items item) (h : r.MadeOf item) (name : String) :
    (r.answer name).isMadeOf item = true := by
  unfold Record.answer
  cases hfound : r.find? name with
  | none => rfl
  | some found => exact h.find? hitem hfound

theorem MadeOf.assign (h : r.MadeOf item) (hvalue : value.isMadeOf item = true) (name : String) :
    (r.assign name value).MadeOf item :=
  All.assign h hvalue hvalue name

theorem MadeOf.stored (h : r.MadeOf Value.isPlainItem) : r.stored.MadeOf Value.isPlainItem :=
  Value.isMadeOf_record_iff.mp (Value.isMadeOf_stored (.record r) (Value.isMadeOf_record_iff.mpr h))

end Record

end Harbormaster
