/-!
Records: named members in order. Names that are array indexes come first, in
ascending order, and the others in the order in which they were added. Writing
a name again keeps its place; removing it and adding it again moves it to the
end. Laws are stated through `get?`.
-/

namespace Harbormaster

structure Record (α : Type) where
  entries : List (String × α)
  deriving Repr

namespace Record

variable {α β : Type}

def empty : Record α := ⟨[]⟩

instance : EmptyCollection (Record α) := ⟨empty⟩
instance : Inhabited (Record α) := ⟨empty⟩

/-- An array index is written without leading zeros and lies below `2 ^ 32 - 1`. -/
def index? (name : String) : Option Nat :=
  match name.toList with
  | ['0'] => some 0
  | '0' :: _ => none
  | [] => none
  | digits =>
    if digits.all Char.isDigit then
      let n := digits.foldl (fun n c => 10 * n + (c.toNat - '0'.toNat)) 0
      if n < 0xFFFFFFFF then some n else none
    else none

/-- Whether a new name belongs before one that is already there. -/
def precedes (name existing : String) : Bool :=
  match index? name, index? existing with
  | some n, some m => n < m
  | some _, none => true
  | none, _ => false

def lookupIn (name : String) : List (String × α) → Option α
  | [] => none
  | (key, value) :: rest => if key = name then some value else lookupIn name rest

def get? (r : Record α) (name : String) : Option α := lookupIn name r.entries

def contains (r : Record α) (name : String) : Bool := (r.get? name).isSome

def replaceEntry (name : String) (value : α) : List (String × α) → List (String × α)
  | [] => []
  | (key, old) :: rest =>
    if key = name then (key, value) :: rest else (key, old) :: replaceEntry name value rest

def addEntry (name : String) (value : α) : List (String × α) → List (String × α)
  | [] => [(name, value)]
  | (key, old) :: rest =>
    if precedes name key then (name, value) :: (key, old) :: rest
    else (key, old) :: addEntry name value rest

/-- Writes one member and leaves all others as they are. -/
def set (r : Record α) (name : String) (value : α) : Record α :=
  ⟨if r.contains name then replaceEntry name value r.entries
    else addEntry name value r.entries⟩

def erase (r : Record α) (name : String) : Record α :=
  ⟨r.entries.filter (·.1 ≠ name)⟩

def ofList (members : List (String × α)) : Record α :=
  members.foldl (fun r m => r.set m.1 m.2) empty

def keys (r : Record α) : List String := r.entries.map (·.1)
def values (r : Record α) : List α := r.entries.map (·.2)
def size (r : Record α) : Nat := r.entries.length

def map (f : α → β) (r : Record α) : Record β := ⟨r.entries.map fun m => (m.1, f m.2)⟩

/-- Applies a function to one member, if it is there. -/
def modify (r : Record α) (name : String) (f : α → α) : Record α :=
  match r.get? name with
  | some value => r.set name (f value)
  | none => r

/-- The members of `r` with those of `s` written over them. -/
def override (r s : Record α) : Record α :=
  s.entries.foldl (fun r m => r.set m.1 m.2) r

@[simp] theorem get?_empty (name : String) : (empty : Record α).get? name = none := rfl

theorem lookupIn_replaceEntry {name : String} {entries : List (String × α)}
    (present : (lookupIn name entries).isSome) (value : α) (other : String) :
    lookupIn other (replaceEntry name value entries) =
      if other = name then some value else lookupIn other entries := by
  induction entries with
  | nil => simp [lookupIn] at present
  | cons entry rest ih => grind [replaceEntry, lookupIn]

theorem lookupIn_addEntry {name : String} {entries : List (String × α)}
    (absent : lookupIn name entries = none) (value : α) (other : String) :
    lookupIn other (addEntry name value entries) =
      if other = name then some value else lookupIn other entries := by
  induction entries with
  | nil => grind [addEntry, lookupIn]
  | cons entry rest ih => grind [addEntry, lookupIn]

/-- A written member is read back, and every other member stays as it was. -/
@[simp] theorem get?_set (r : Record α) (name : String) (value : α) (other : String) :
    (r.set name value).get? other = if other = name then some value else r.get? other := by
  unfold set get?
  by_cases present : r.contains name
  · simpa [present] using lookupIn_replaceEntry present value other
  · simp only [present]
    refine lookupIn_addEntry ?_ value other
    simpa [contains, get?] using present

theorem lookupIn_filter (name other : String) (entries : List (String × α)) :
    lookupIn other (entries.filter (·.1 ≠ name)) =
      if other = name then none else lookupIn other entries := by
  induction entries with
  | nil => simp [lookupIn]
  | cons entry rest ih => grind [lookupIn]

@[simp] theorem get?_erase (r : Record α) (name other : String) :
    (r.erase name).get? other = if other = name then none else r.get? other :=
  lookupIn_filter name other r.entries

theorem filter_of_absent {name : String} {entries : List (String × α)}
    (absent : lookupIn name entries = none) :
    entries.filter (·.1 ≠ name) = entries := by
  induction entries with
  | nil => rfl
  | cons entry rest ih => grind [lookupIn]

theorem filter_addEntry {name : String} {entries : List (String × α)}
    (absent : lookupIn name entries = none) (value : α) :
    (addEntry name value entries).filter (·.1 ≠ name) = entries := by
  induction entries with
  | nil => simp [addEntry]
  | cons entry rest ih =>
    have kept := filter_of_absent absent
    grind [addEntry, lookupIn]

/-- Erasing a member that was not there before it was written undoes the write. -/
theorem erase_set_of_absent {r : Record α} {name : String} (absent : r.get? name = none)
    (value : α) : (r.set name value).erase name = r := by
  have fresh : r.contains name = false := by simp [contains, absent]
  simp only [set, erase, fresh, Bool.false_eq_true, if_false]
  rw [filter_addEntry absent]

end Record

end Harbormaster
