import Harbormaster.Proofs.World.Contents

/-!
Worlds in which all numbers are finite. What is made of scalars a document keeps as it is
then, so that nothing is found absent later; all that it drops is what was never given. What
is left in a cell is something that the cell may hold, unless that is a record. Everything is
told of the entries that are listed, since a history looks at those before it begins with a
world.
-/

namespace Harbormaster

namespace Value

mutual

/-- Whether all numbers in a value are finite and everything in it was given. -/
def isFinite : Value → Bool
  | number n => n.isFinite
  | list items => finiteItems items
  | record ⟨entries⟩ => finiteEntries entries
  | missing | native _ | fallback _ => false
  | absent | boolean _ | text _ => true

def finiteItems : List Value → Bool
  | [] => true
  | v :: rest => v.isFinite && finiteItems rest

def finiteEntries : List (String × Value) → Bool
  | [] => true
  | (_, v) :: rest => v.isFinite && finiteEntries rest

end

theorem isSolid_of_isScalar {v : Value} (hscalar : v.isScalar = true)
    (hfinite : v.isFinite = true) : v.isSolid = true := by
  cases v with
  | boolean | text => rfl
  | number n =>
    unfold isFinite at hfinite
    unfold isSolid
    exact hfinite
  | missing | absent | list | record | native | fallback => cases hscalar

theorem solidItems_of_finiteItems {items : List Value} (hscalars : items.all isScalar = true)
    (hfinite : finiteItems items = true) : solidItems items = true := by
  induction items with
  | nil => rfl
  | cons v rest ih =>
    rw [List.all_cons, Bool.and_eq_true] at hscalars
    rw [finiteItems, Bool.and_eq_true] at hfinite
    rw [solidItems, isSolid_of_isScalar hscalars.1 hfinite.1, ih hscalars.2 hfinite.2]
    rfl

/-- What a cell may hold is solid as soon as its numbers are finite. -/
theorem isSolid_of_isStorable {v : Value} (hstorable : v.isStorable = true)
    (hfinite : v.isFinite = true) : v.isSolid = true := by
  cases v with
  | list items =>
    unfold isFinite at hfinite
    unfold isSolid
    exact solidItems_of_finiteItems hstorable hfinite
  | missing | absent | boolean | number | text | record | native | fallback =>
    exact isSolid_of_isScalar hstorable hfinite

/-- What a cell may come to hold is what it may be given, unless it is a record or was never
given. -/
theorem isStorable_of_isMadeOf {v : Value} (hmade : v.isMadeOf isScalar = true)
    (hfinite : v.isFinite = true) (hrecord : v.record? = none) : v.isStorable = true := by
  cases v with
  | list | boolean | number | text => exact hmade
  | absent => cases hmade
  | record => cases hrecord
  | missing | native | fallback => cases hfinite

mutual

/-- What is made of scalars is solid as soon as its numbers are finite. -/
theorem isSolid_of_isMadeOf (v : Value) (hmade : v.isMadeOf isScalar = true)
    (hfinite : v.isFinite = true) : v.isSolid = true := by
  match v with
  | missing | native _ | fallback _ => cases hfinite
  | absent => cases hmade
  | boolean _ | text _ => rfl
  | number n =>
    unfold isFinite at hfinite
    unfold isSolid
    exact hfinite
  | list items =>
    unfold isFinite at hfinite
    unfold isSolid
    exact solidItems_of_finiteItems hmade hfinite
  | record ⟨entries⟩ =>
    unfold isMadeOf at hmade
    unfold isFinite at hfinite
    unfold isSolid
    exact solidEntries_of_entriesMadeOf entries hmade hfinite

theorem solidEntries_of_entriesMadeOf (entries : List (String × Value))
    (hmade : entriesMadeOf isScalar entries = true) (hfinite : finiteEntries entries = true) :
    solidEntries entries = true := by
  match entries with
  | [] => rfl
  | (name, v) :: rest =>
    rw [entriesMadeOf, Bool.and_eq_true] at hmade
    rw [finiteEntries, Bool.and_eq_true] at hfinite
    rw [solidEntries, isSolid_of_isMadeOf v hmade.1 hfinite.1,
      solidEntries_of_entriesMadeOf rest hmade.2 hfinite.2]
    rfl

end

end Value

namespace Record

variable {r : Record Value}

/-- Something that a cell may hold is in every member of the record. -/
def Filled (r : Record Value) : Prop := r.All fun v => v.isStorable = true

/-- All numbers in the members of a record are finite, and no member is a record itself. What
a document drops anyway does not count. -/
def Finite (r : Record Value) : Prop :=
  r.All fun v => v.hasForm = true → v.isFinite = true ∧ v.record? = none

instance : DecidablePred Finite := fun r =>
  have (v : Value) : Decidable (v.record? = none) := decidable_of_iff _ Option.isNone_iff_eq_none
  inferInstanceAs
    (Decidable (r.All fun v => v.hasForm = true → v.isFinite = true ∧ v.record? = none))

/-- What a document keeps of a record is what cells may hold. -/
theorem MadeOf.filled_stored (h : r.MadeOf Value.isScalar) (hfinite : r.Finite) :
    r.stored.Filled := by
  rintro ⟨name, kept⟩ hentry
  obtain ⟨v, hv, hkept⟩ := Value.mem_storedEntries hentry
  obtain ⟨hform, rfl⟩ := Option.ite_some_none_eq_some.mp hkept
  obtain ⟨hnumbers, hrecord⟩ := hfinite _ hv hform
  have hstorable := Value.isStorable_of_isMadeOf (h _ hv) hnumbers hrecord
  change v.stored.isStorable = true
  rwa [Value.stored_of_isSolid (Value.isSolid_of_isStorable hstorable hnumbers)]

theorem Filled.madeOf {item : Value → Bool} (hitem : Value.Items item) (h : r.Filled) :
    r.MadeOf item :=
  All.imp h fun _ hv => Value.isMadeOf_of_isStorable hitem hv

end Record

/-- An event as rules spawn it and documents spell it: what cells may hold, and a payload of
that. -/
def Event.Typed (e : Event) : Prop :=
  e.members.All fun v => v.isStorable = true ∨ ∃ r : Record Value, v = .record r ∧ r.Filled

theorem Event.Typed.madeOf {item : Value → Bool} {e : Event} (hitem : Value.Items item)
    (h : e.Typed) : e.members.MadeOf item := by
  intro entry hentry
  rcases h entry hentry with hstorable | ⟨payload, hrecord, hfilled⟩
  · exact Value.isMadeOf_of_isStorable hitem hstorable
  · rw [hrecord]
    exact Value.isMadeOf_record_iff.mpr (hfilled.madeOf hitem)

/-- An event in which all numbers are finite and everything was given. -/
def Event.Finite (e : Event) : Prop := e.members.All fun v => v.isFinite = true

instance : DecidablePred Event.Finite := fun e =>
  inferInstanceAs (Decidable (e.members.All fun v => v.isFinite = true))

/-- A document keeps an event of scalars as long as its numbers are finite. -/
theorem Event.Finite.stored {e : Event} (h : e.Finite) (hmade : e.members.MadeOf Value.isScalar) :
    e.stored = e := by
  have hsolid : Value.solidEntries e.members.entries = true := by
    rw [Value.solidEntries_eq_true_iff]
    exact fun entry hentry =>
      Value.isSolid_of_isMadeOf entry.2 (hmade entry hentry) (h entry hentry)
  unfold Event.stored Record.stored
  rw [Value.storedEntries_of_solidEntries hsolid]

/-- A world in which all numbers are finite, those of its events included, and no cell holds a
record. An event holds nothing that was never given. -/
structure World.Finite (w : World) : Prop where
  fields : w.agents.All fun a => a.fields.Finite
  environment : w.environment.Finite
  metrics : w.metrics.Finite
  events : w.events.All Event.Finite

instance : DecidablePred World.Finite := fun w =>
  decidable_of_iff
    ((w.agents.All fun a => a.fields.Finite) ∧ w.environment.Finite ∧ w.metrics.Finite ∧
      w.events.All Event.Finite)
    ⟨fun ⟨hfields, henvironment, hmetrics, hevents⟩ => ⟨hfields, henvironment, hmetrics, hevents⟩,
      fun h => ⟨h.fields, h.environment, h.metrics, h.events⟩⟩

namespace World.MadeOf

variable {w : World}

theorem fields_stored (h : w.MadeOf Value.isScalar) (hfinite : w.Finite) :
    w.stored.agents.All fun a => a.fields.Filled := by
  intro entry hentry
  obtain ⟨a, ha, rfl⟩ := List.mem_map.mp hentry
  exact Record.MadeOf.filled_stored (h.fields a ha) (hfinite.fields a ha)

/-- What a document keeps of a world of scalars is made of scalars. -/
theorem stored_of_finite (h : w.MadeOf Value.isScalar) (hfinite : w.Finite) :
    w.stored.MadeOf Value.isScalar := by
  have hscalar := Value.items_isScalar
  refine ⟨Record.All.imp (h.fields_stored hfinite) fun _ hfields => hfields.madeOf hscalar,
    (h.environment.filled_stored hfinite.environment).madeOf hscalar,
    (h.metrics.filled_stored hfinite.metrics).madeOf hscalar, ?_⟩
  intro entry hentry
  obtain ⟨e, he, rfl⟩ := List.mem_map.mp hentry
  change e.2.stored.members.MadeOf Value.isScalar
  rw [Event.Finite.stored (hfinite.events e he) (h.events e he)]
  exact h.events e he

end World.MadeOf

end Harbormaster
