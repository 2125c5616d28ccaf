import Harbormaster.Value.Basic

/-!
What records answer to names that they do not hold. Every record falls back on the root,
whose functions it shares, and shows what it falls back on under the name `__proto__`.
Writing a list or a record under that name replaces what is fallen back on, and writing a
scalar there does nothing. Only where a document has made the name a member of its own is
it written like any other.
-/

namespace Harbormaster

namespace Native

/-- The functions that all records share. -/
def methods : List String :=
  ["constructor", "__defineGetter__", "__defineSetter__", "hasOwnProperty", "__lookupGetter__",
    "__lookupSetter__", "isPrototypeOf", "propertyIsEnumerable", "toString", "valueOf",
    "toLocaleString"]

/-- The functions that all lists share. -/
def listMethods : List String :=
  ["at", "concat", "copyWithin", "fill", "find", "findIndex", "findLast", "findLastIndex",
    "lastIndexOf", "pop", "push", "reverse", "shift", "unshift", "slice", "sort", "splice",
    "includes", "indexOf", "join", "keys", "entries", "values", "forEach", "filter", "flat",
    "flatMap", "map", "every", "some", "reduce", "reduceRight", "toReversed", "toSorted",
    "toSpliced", "with", "constructor", "toString", "toLocaleString"]

end Native

/-- The name under which a record shows what it falls back on. -/
def Record.baseName : String := "__proto__"

namespace Value

def isObject : Value → Bool
  | list _ | record _ | native _ => true
  | _ => false

def isFallback : Value → Bool
  | fallback _ => true
  | _ => false

/-- What all records have in common. -/
def shared? (name : String) : Option Value :=
  if name = Record.baseName then some (native .root)
  else if Native.methods.contains name then some (native (.method name))
  else none

/-- What a list has besides: its items under their places, its length and functions. -/
def listed? (items : List Value) (name : String) : Option Value :=
  match Record.index? name with
  | some place => items[place]?
  | none =>
    if name = "length" then some (number (.ofNat items.length))
    else if Native.listMethods.contains name then some (native (.listMethod name))
    else none

/-- What a value gives under a name, by itself or by what it falls back on. -/
def property? (v : Value) (name : String) : Option Value :=
  match v with
  | missing | absent => none
  | list items => (listed? items name).or (shared? name)
  | record r => (r.get? name).or (shared? name)
  | _ => shared? name

end Value

namespace Record

/-- What the record falls back on. -/
def base (r : Record Value) : Value :=
  match r.get? baseName with
  | some (.fallback base) => base
  | _ => .native .root

/-- What the record answers to a name: the member that it holds, or else what it falls
back on. -/
def find? (r : Record Value) (name : String) : Option Value :=
  if name = baseName then
    match r.get? name with
    | some (.fallback base) => base.given?
    | some own => some own
    | none => some (.native .root)
  else (r.get? name).or (r.base.property? name)

/-- The answer as a value. -/
def answer (r : Record Value) (name : String) : Value := (r.find? name).getD .missing

/-- Whether a name has no place of its own in the record but leads to what it falls back
on. -/
def leads (r : Record Value) (name : String) : Bool :=
  name == baseName &&
    match r.get? name with
    | none => true
    | some (.fallback base) => base.isObject
    | some _ => false

/-- Writes a name. -/
def assign (r : Record Value) (name : String) (value : Value) : Record Value :=
  if r.leads name then
    if value.isObject || value.isAbsent then r.set name (.fallback value) else r
  else r.set name value

/-- Takes a name back; what the record falls back on stays. -/
def drop (r : Record Value) (name : String) : Record Value :=
  if name = baseName ∧ (r.get? name).any Value.isFallback then r else r.erase name

variable {r : Record Value} {name other : String} {value : Value}

/-- Every other name is a member like all members. -/
theorem leads_of_ne (h : name ≠ baseName) : r.leads name = false := by simp [leads, h]

theorem assign_of_ne (h : name ≠ baseName) : r.assign name value = r.set name value := by
  simp [assign, leads_of_ne h]

theorem drop_of_ne (h : name ≠ baseName) : r.drop name = r.erase name := by simp [drop, h]

theorem find?_of_ne (h : name ≠ baseName) :
    r.find? name = (r.get? name).or (r.base.property? name) := by simp [find?, h]

/-- Writing a name changes the record under that name at most. -/
theorem get?_assign_of_ne (h : other ≠ name) :
    (r.assign name value).get? other = r.get? other := by
  unfold assign
  split
  · split
    · rw [get?_set, if_neg h]
    · rfl
  · rw [get?_set, if_neg h]

theorem get?_drop_of_ne (h : other ≠ name) : (r.drop name).get? other = r.get? other := by
  unfold drop
  split
  · rfl
  · rw [get?_erase, if_neg h]

end Record

end Harbormaster
