import Harbormaster.Number.Basic
import Harbormaster.Record

/-!
Values: what rules, worlds and documents are made of. The world holds scalars
and lists of scalars; records and deeper lists occur in documents that have not
been checked yet. `Value.same` is the equality that conditions use, and
`Value.stored` is what is left of a value once it has been written to a
document and read back.

Two values stand for nothing. `absent` is a marker that documents write; what
is `missing` was never given, and no document has a way to write it.

Records and lists answer to some names that were never given to them. What they
answer with is `native`; a document drops it, but for the record on which all
others fall back, of which it keeps an empty one.
-/

namespace Harbormaster

/-- What is there without having been given. -/
inductive Native where
  /-- The record on which all others fall back in the end. -/
  | root
  /-- A function of all records, by its name. -/
  | method (name : String)
  /-- A function of all lists, by its name. -/
  | listMethod (name : String)
  deriving DecidableEq, Repr

namespace Native

def functionText (name : String) : String :=
  "function " ++ name ++ "() \x7b [native code] \x7d"

/-- The functions under the name `constructor` are called after what they make. -/
def text : Native → String
  | root => "[object Object]"
  | method name => functionText (if name = "constructor" then "Object" else name)
  | listMethod name => functionText (if name = "constructor" then "Array" else name)

end Native

inductive Value where
  /-- What was never given. -/
  | missing
  /-- The marker of a value that is not there. -/
  | absent
  | boolean (value : Bool)
  | number (value : Number)
  | text (value : String)
  | list (items : List Value)
  | record (members : Record Value)
  | native (thing : Native)
  /-- Stands in a record under `__proto__`, and there only: what the record falls
  back on in place of the root. -/
  | fallback (base : Value)

namespace Value

instance : Inhabited Value := ⟨absent⟩
instance : Coe Bool Value := ⟨boolean⟩
instance : Coe Number Value := ⟨number⟩
instance : Coe String Value := ⟨text⟩
instance (n : Nat) : OfNat Value n := ⟨number (OfNat.ofNat n)⟩
instance : OfScientific Value := ⟨fun m s e => number (OfScientific.ofScientific m s e)⟩

def isScalar : Value → Bool
  | boolean _ | number _ | text _ => true
  | _ => false

/-- What a cell of the world may hold: a scalar or a list of scalars. -/
def isStorable : Value → Bool
  | list items => items.all isScalar
  | v => v.isScalar

def number? : Value → Option Number
  | number n => some n
  | _ => none

def text? : Value → Option String
  | text s => some s
  | _ => none

def list? : Value → Option (List Value)
  | list items => some items
  | _ => none

def record? : Value → Option (Record Value)
  | record members => some members
  | _ => none

/-- A list of texts, unwrapped. -/
def texts? (v : Value) : Option (List String) :=
  v.list?.bind fun items => items.mapM text?

/-- Marks an optional value that is not there as absent. -/
def ofOption : Option Value → Value
  | some v => v
  | none => absent

/-- Marks an optional text that is not there as absent. -/
def ofText? (s : Option String) : Value := ofOption (s.map text)

def isAbsent : Value → Bool
  | absent => true
  | _ => false

def isMissing : Value → Bool
  | missing => true
  | _ => false

/-- Whether a document has a way to write a value. -/
def hasForm : Value → Bool
  | missing | native (.method _) | native (.listMethod _) | fallback _ => false
  | _ => true

/-- A value that stands for something. -/
def given? : Value → Option Value
  | missing | absent => none
  | v => some v

/-- A value with what is missing marked as absent. -/
def marked : Value → Value
  | missing => absent
  | v => v

/-- Whether a value counts as true: nothing, zero, what is no number and the
empty text do not. -/
def counts : Value → Bool
  | missing | absent => false
  | boolean b => b
  | number n => !(n.isNaN || n.eq 0)
  | text s => !s.isEmpty
  | list _ | record _ | native _ | fallback _ => true

/-- Equality of list items: the same kind and the same scalar. Two lists or
two records are never the same item. -/
def sameItem : Value → Value → Bool
  | missing, missing => true
  | absent, absent => true
  | boolean a, boolean b => a == b
  | number a, number b => a.eq b
  | text a, text b => a == b
  | native a, native b => a == b
  | _, _ => false

/-- Lists are the same when their items are, place by place. -/
def sameItems : List Value → List Value → Bool
  | [], [] => true
  | a :: as, b :: bs => a.sameItem b && sameItems as bs
  | _, _ => false

/-- Equality as conditions read it: nothing is converted, lists compare item by
item, and the absent marker equals itself and `false`. -/
def same : Value → Value → Bool
  | absent, other | other, absent =>
    match other with
    | absent | boolean false => true
    | _ => false
  | list as, list bs => sameItems as bs
  | a, b => a.sameItem b

/-- Whether a value is a number that differs even from itself. -/
def isNaN : Value → Bool
  | number n => n.isNaN
  | _ => false

/-- Whether a value read twice from one place is the same. A list or a record is
the same as itself, whatever it holds. -/
def sameAsItself : Value → Bool
  | list items => items.all (!·.isNaN)
  | v => !v.isNaN

mutual

/-- The value that a document holds. Numbers that are not finite have no written
form and become absent; of what has no form at all a list keeps the place and a
record nothing. -/
def stored : Value → Value
  | number n => if n.isFinite then number n else absent
  | list items => list (storedItems items)
  | record ⟨entries⟩ => record ⟨storedEntries entries⟩
  | native .root => record ∅
  | native _ | fallback _ => missing
  | v => v

def storedItems : List Value → List Value
  | [] => []
  | v :: rest => v.stored.marked :: storedItems rest

def storedEntries : List (String × Value) → List (String × Value)
  | [] => []
  | (name, v) :: rest =>
    if v.hasForm then (name, v.stored) :: storedEntries rest else storedEntries rest

end

end Value

namespace Record

/-- The record as a document holds it. -/
def stored (r : Record Value) : Record Value := ⟨Value.storedEntries r.entries⟩

/-- A member as a value. -/
def member (r : Record Value) (name : String) : Value := (r.get? name).getD .missing

end Record

namespace Value

/-- The members of a value: those of a record, the items of a list under the
numbers of their places, and the characters of a text likewise. -/
def members : Value → Record Value
  | record r => r
  | list items => .ofList (items.mapIdx fun place item => (place.repr, item))
  | text s => .ofList (s.toList.mapIdx fun place c => (place.repr, .text (.singleton c)))
  | _ => ∅

/-- A member of a record; other values have none. -/
def member (v : Value) (name : String) : Value := (v.record?.getD ∅).member name

end Value

end Harbormaster
