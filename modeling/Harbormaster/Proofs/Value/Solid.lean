import Mathlib.Data.List.Perm.Basic
import Mathlib.Data.List.Nodup
import Harbormaster.Value.Inheritance

/-!
What a document keeps of a value. A solid value is kept as it is. Of a record
whose names are distinct a document keeps, under each name, what it keeps of the
member, and of a member that is missing it keeps nothing.
-/

namespace Harbormaster

namespace Value

mutual

def isSolid : Value → Bool
  | missing | absent | native _ | fallback _ => false
  | number n => n.isFinite
  | boolean _ | text _ => true
  | list items => solidItems items
  | record ⟨entries⟩ => solidEntries entries

def solidItems : List Value → Bool
  | [] => true
  | v :: rest => v.isSolid && solidItems rest

def solidEntries : List (String × Value) → Bool
  | [] => true
  | (_, v) :: rest => v.isSolid && solidEntries rest

end

mutual

theorem stored_of_isSolid {v : Value} (h : v.isSolid = true) : v.stored = v := by
  cases v with
  | missing | absent | native | fallback => cases h
  | boolean | text => rfl
  | number n =>
    unfold isSolid at h
    unfold stored
    rw [if_pos h]
  | list items =>
    unfold isSolid at h
    unfold stored
    rw [storedItems_of_solidItems h]
  | record members =>
    obtain ⟨entries⟩ := members
    unfold isSolid at h
    unfold stored
    rw [storedEntries_of_solidEntries h]

theorem storedItems_of_solidItems {items : List Value} (h : solidItems items = true) :
    storedItems items = items := by
  cases items with
  | nil => rfl
  | cons v rest =>
    unfold solidItems at h
    obtain ⟨hv, hrest⟩ := Bool.and_eq_true_iff.mp h
    unfold storedItems
    rw [stored_of_isSolid hv, storedItems_of_solidItems hrest]
    cases v with
    | missing => cases hv
    | absent | boolean | number | text | list | record | native | fallback => rfl

theorem storedEntries_of_solidEntries {entries : List (String × Value)}
    (h : solidEntries entries = true) : storedEntries entries = entries := by
  cases entries with
  | nil => rfl
  | cons entry rest =>
    obtain ⟨name, v⟩ := entry
    unfold solidEntries at h
    obtain ⟨hv, hrest⟩ := Bool.and_eq_true_iff.mp h
    have hform : v.hasForm = true := by
      cases v with
      | missing | native | fallback => cases hv
      | absent | boolean | number | text | list | record => rfl
    rw [storedEntries, if_pos hform, stored_of_isSolid hv, storedEntries_of_solidEntries hrest]

end

def kept? (v : Value) : Option Value := if v.hasForm then some v.stored else none

/-- What a cell can be so that a document keeps it: everything but the marker of
nothing, numbers that are not finite and what was never given. A cell that is missing is
not kept, but neither is it kept as anything else. -/
def isCell : Value → Bool
  | absent | native _ | fallback _ => false
  | number n => n.isFinite
  | _ => true

theorem isCell_of_isSolid {v : Value} (h : v.isSolid = true) : v.isCell = true := by
  cases v with
  | missing | absent | native | fallback => cases h
  | number n =>
    unfold isSolid at h
    exact h
  | boolean | text | list | record => rfl

theorem hasForm_of_isSolid {v : Value} (h : v.isSolid = true) : v.hasForm = true := by
  cases v with
  | missing | native | fallback => cases h
  | absent | boolean | number | text | list | record => rfl

theorem kept?_of_hasForm {v : Value} (h : v.hasForm = true) : v.kept? = some v.stored := if_pos h

theorem mem_storedEntries {entries : List (String × Value)} {name : String} {kept : Value}
    (h : (name, kept) ∈ storedEntries entries) :
    ∃ v, (name, v) ∈ entries ∧ v.kept? = some kept := by
  induction entries with
  | nil => cases h
  | cons entry rest ih =>
    obtain ⟨key, v⟩ := entry
    have hlater : (name, kept) ∈ storedEntries rest →
        ∃ v', (name, v') ∈ (key, v) :: rest ∧ v'.kept? = some kept := by
      intro hrest
      obtain ⟨w, hw, hkept⟩ := ih hrest
      exact ⟨w, List.mem_cons_of_mem _ hw, hkept⟩
    rw [storedEntries] at h
    split at h
    · rename_i hform
      rcases List.mem_cons.mp h with hfirst | hrest
      · cases hfirst
        exact ⟨v, List.mem_cons_self, kept?_of_hasForm hform⟩
      · exact hlater hrest
    · exact hlater h

theorem kept?_of_isSolid {v : Value} (h : v.isSolid = true) : v.kept? = some v := by
  rw [kept?_of_hasForm (hasForm_of_isSolid h), stored_of_isSolid h]

/-- What has no form is stored as nothing. -/
theorem stored_of_not_hasForm {v : Value} (h : v.hasForm = false) : v.stored = missing := by
  cases v with
  | missing | fallback => rfl
  | native thing => cases thing with
    | root => cases h
    | method | listMethod => rfl
  | absent | boolean | number | text | list | record => cases h

theorem getD_kept? (v : Value) : v.kept?.getD missing = v.stored := by
  unfold kept?
  split
  · rfl
  · rename_i hform
    exact (stored_of_not_hasForm (Bool.eq_false_iff.mpr hform)).symm

/-- Of what is given, marking what is missing and storing can be done in either order. -/
theorem marked_stored {v : Value} (h : v = missing ∨ v.hasForm = true) :
    v.stored.marked = v.marked.stored := by
  cases v with
  | missing | absent | boolean | text | list => rfl
  | number n => by_cases hn : n.isFinite <;> simp [marked, stored, hn]
  | record members =>
    obtain ⟨entries⟩ := members
    rfl
  | native thing => cases thing with
    | root => rfl
    | method | listMethod => rcases h with h | h <;> cases h
  | fallback => rcases h with h | h <;> cases h

theorem marked_stored_of_isCell {v : Value} (h : v.isCell = true) :
    v.stored.marked = v.marked.stored := by
  refine marked_stored ?_
  cases v with
  | missing => exact .inl rfl
  | native | fallback => cases h
  | absent | boolean | number | text | list | record => exact .inr rfl

/-- A document does not say what a record falls back on. -/
theorem isFallback_of_kept? {v kept : Value} (h : v.kept? = some kept) :
    kept.isFallback = false := by
  cases v with
  | missing | fallback => cases h
  | number n =>
    cases h
    unfold stored
    split <;> rfl
  | native thing => cases thing with
    | root =>
      cases h
      rfl
    | method | listMethod => cases h
  | absent | boolean | text | list =>
    cases h
    rfl
  | record members =>
    cases h
    rfl

/-- An entry is kept in its place or not at all. -/
theorem storedEntries_cons (name : String) (v : Value) (rest : List (String × Value)) :
    storedEntries ((name, v) :: rest) =
      (v.kept?.map fun value => (name, value)).toList ++ storedEntries rest := by
  rw [storedEntries]
  unfold kept?
  split <;> rfl

/-- A cell that is there is kept as a value. -/
theorem stored_of_isCell {v : Value} (h : v.isCell = true) (hthere : v ≠ missing) :
    v.kept? = some v.stored ∧ v.stored ≠ absent ∧ v.marked = v := by
  cases v with
  | missing => exact absurd rfl hthere
  | absent | native | fallback => cases h
  | number n =>
    have hn : n.isFinite = true := h
    have hstored : (number n).stored = number n := by
      unfold stored
      rw [if_pos hn]
    rw [hstored]
    exact ⟨congrArg some hstored, Value.noConfusion, rfl⟩
  | boolean | text =>
    exact ⟨rfl, Value.noConfusion, rfl⟩
  | list items => exact ⟨rfl, Value.noConfusion, rfl⟩
  | record members =>
    obtain ⟨entries⟩ := members
    exact ⟨rfl, Value.noConfusion, rfl⟩

end Value

namespace Record

variable {α : Type}

/-- Whether no name occurs twice. -/
def Distinct (r : Record α) : Prop := r.keys.Nodup

theorem lookupIn_eq_none_iff (name : String) (entries : List (String × α)) :
    lookupIn name entries = none ↔ name ∉ entries.map (·.1) := by
  induction entries with
  | nil => simp [lookupIn]
  | cons entry rest ih =>
    obtain ⟨key, value⟩ := entry
    unfold lookupIn
    by_cases hkey : key = name
    · simp [hkey]
    · have hne : name ≠ key := fun h => hkey h.symm
      simp only [hkey, if_false, ih, List.map_cons, List.mem_cons, hne, false_or]

theorem map_replaceEntry (name : String) (value : α) (entries : List (String × α)) :
    (replaceEntry name value entries).map (·.1) = entries.map (·.1) := by
  induction entries with
  | nil => rfl
  | cons entry rest ih =>
    unfold replaceEntry
    split
    · rfl
    · rw [List.map_cons, List.map_cons, ih]

/-- A new entry finds its place among the others, which keep theirs. -/
theorem perm_addEntry (name : String) (value : α) (entries : List (String × α)) :
    (addEntry name value entries).Perm ((name, value) :: entries) := by
  induction entries with
  | nil => exact .refl _
  | cons entry rest ih =>
    unfold addEntry
    split
    · exact .refl _
    · exact (ih.cons _).trans (.swap _ _ _)

theorem perm_map_addEntry (name : String) (value : α) (entries : List (String × α)) :
    ((addEntry name value entries).map (·.1)).Perm (name :: entries.map (·.1)) :=
  (perm_addEntry name value entries).map _

theorem Distinct.set {r : Record α} (h : r.Distinct) (name : String) (value : α) :
    (r.set name value).Distinct := by
  unfold Distinct keys Record.set
  split
  · rw [map_replaceEntry]
    exact h
  · rename_i hnew
    have hname : lookupIn name r.entries = none := by
      simpa [contains, get?] using hnew
    rw [(perm_map_addEntry name value r.entries).nodup_iff, List.nodup_cons]
    exact ⟨(lookupIn_eq_none_iff name r.entries).mp hname, h⟩

theorem Distinct.erase {r : Record α} (h : r.Distinct) (name : String) :
    (r.erase name).Distinct := by
  unfold Distinct keys Record.erase
  exact h.sublist (List.filter_sublist.map _)

theorem Distinct.assign {r : Record Value} (h : r.Distinct) (name : String) (value : Value) :
    (r.assign name value).Distinct := by
  unfold Record.assign
  split
  · split
    · exact h.set name _
    · exact h
  · exact h.set name value

theorem Distinct.drop {r : Record Value} (h : r.Distinct) (name : String) :
    (r.drop name).Distinct := by
  unfold Record.drop
  split
  · exact h
  · exact h.erase name

theorem mem_of_get? {r : Record α} {name : String} {value : α}
    (h : r.get? name = some value) : (name, value) ∈ r.entries := by
  unfold get? at h
  induction hentries : r.entries generalizing r with
  | nil =>
    rw [hentries] at h
    cases h
  | cons entry rest ih =>
    rw [hentries, lookupIn] at h
    split at h
    · rename_i hkey
      cases h
      subst hkey
      exact List.mem_cons_self
    · exact List.mem_cons_of_mem _ (@ih ⟨rest⟩ h rfl)

theorem get?_map {β : Type} (f : α → β) (r : Record α) (name : String) :
    (r.map f).get? name = (r.get? name).map f := by
  obtain ⟨entries⟩ := r
  unfold get? map
  dsimp only
  induction entries with
  | nil => rfl
  | cons entry rest ih =>
    rw [List.map_cons, lookupIn, lookupIn]
    split
    · rfl
    · exact ih

/-- A document keeps each member on its own. -/
theorem get?_stored {r : Record Value} (h : r.Distinct) (name : String) :
    r.stored.get? name = (r.get? name).bind Value.kept? := by
  obtain ⟨entries⟩ := r
  unfold Distinct keys at h
  unfold stored get?
  dsimp only at h ⊢
  induction entries with
  | nil => rfl
  | cons entry rest ih =>
    obtain ⟨key, v⟩ := entry
    rw [List.map_cons, List.nodup_cons] at h
    have hrest := ih h.2
    rw [Value.storedEntries_cons]
    by_cases hkey : key = name
    · subst hkey
      cases hkept : v.kept? with
      | none =>
        -- an entry that is dropped does not uncover a later one, as its name is taken once
        have hnone : lookupIn key rest = none := (lookupIn_eq_none_iff key rest).mpr h.1
        rw [hnone] at hrest
        simp [lookupIn, hrest, hkept]
      | some value => simp [lookupIn, hkept]
    · cases hkept : v.kept? with
      | none => simpa [lookupIn, hkey] using hrest
      | some value => simpa [lookupIn, hkey] using hrest

/-- A member that has a form is kept, whatever else stands under its name. -/
theorem member_stored {r : Record Value} {name : String} (h : (r.member name).hasForm = true) :
    r.stored.member name = (r.member name).stored := by
  obtain ⟨entries⟩ := r
  unfold stored member get? at *
  dsimp only at h ⊢
  induction entries with
  | nil => cases h
  | cons entry rest ih =>
    obtain ⟨key, v⟩ := entry
    rw [Value.storedEntries_cons]
    by_cases hkey : key = name
    · have hthere : v.hasForm = true := by simpa [lookupIn, hkey] using h
      simp [lookupIn, hkey, Value.kept?_of_hasForm hthere]
    · have hrest := ih (by simpa [lookupIn, hkey] using h)
      cases hkept : v.kept? with
      | none => simpa [lookupIn, hkey] using hrest
      | some value => simpa [lookupIn, hkey] using hrest

/-- A record with distinct names, as every record that a document spells, and with
solid members. -/
structure Solid (r : Record Value) : Prop where
  distinct : r.Distinct
  solid : Value.solidEntries r.entries = true

theorem Solid.stored {r : Record Value} (h : r.Solid) : r.stored = r := by
  unfold Record.stored
  rw [Value.storedEntries_of_solidEntries h.solid]

theorem Solid.isSolid {r : Record Value} (h : r.Solid) {name : String} {v : Value}
    (hv : r.get? name = some v) : v.isSolid = true := by
  have hmember := mem_of_get? hv
  have hsolid := h.solid
  generalize r.entries = entries at hmember hsolid
  induction entries with
  | nil => cases hmember
  | cons entry rest ih =>
    obtain ⟨key, first⟩ := entry
    unfold Value.solidEntries at hsolid
    obtain ⟨hfirst, hrest⟩ := Bool.and_eq_true_iff.mp hsolid
    rcases List.mem_cons.mp hmember with heq | hlater
    · cases heq
      exact hfirst
    · exact ih hlater hrest

end Record

end Harbormaster
