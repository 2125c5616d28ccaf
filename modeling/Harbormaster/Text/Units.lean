/-!
Sixteen-bit units of a text. Positions in messages count them and texts are
sorted by them: a character beyond the basic plane counts as two units, both of
them below the last characters of the basic plane.
-/

namespace Harbormaster.Text

/-- The units of one character: itself, or a pair of surrogates. -/
def charUnits (c : Char) : List Nat :=
  let n := c.toNat
  if n < 0x10000 then [n]
  else [0xD800 + (n - 0x10000) / 0x400, 0xDC00 + (n - 0x10000) % 0x400]

def units (s : String) : List Nat := s.toList.flatMap charUnits

/-- The number of units of a list of characters. -/
def unitCount : List Char → Nat
  | [] => 0
  | c :: rest => (charUnits c).length + unitCount rest

/-- The order of unit sequences in a dictionary. -/
def unitsLe : List Nat → List Nat → Bool
  | [], _ => true
  | _ :: _, [] => false
  | a :: as, b :: bs => a < b || (a == b && unitsLe as bs)

/-- The order of texts by their units. -/
def le (a b : String) : Bool := unitsLe (units a) (units b)

def sort (texts : List String) : List String := texts.mergeSort le

end Harbormaster.Text
