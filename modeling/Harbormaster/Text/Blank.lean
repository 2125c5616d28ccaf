/-!
White space, and the cuts of a text that depend on it: trimming and splitting
at a separator. White space is the space separators of Unicode, the line and
paragraph separators, the five ASCII controls from tab to carriage return and
the byte order mark; the next-line control and the zero-width space are not
white space.
-/

namespace Harbormaster.Text

/-- White space as this library reads it everywhere. -/
def isBlank (c : Char) : Bool :=
  let n := c.toNat
  (9 ≤ n && n ≤ 13) || n == 0x20 || n == 0xA0 || n == 0x1680 ||
    (0x2000 ≤ n && n ≤ 0x200A) || n == 0x2028 || n == 0x2029 || n == 0x202F ||
    n == 0x205F || n == 0x3000 || n == 0xFEFF

/-- The characters between the first and the last that are not white space. -/
def trimChars (cs : List Char) : List Char :=
  ((cs.dropWhile isBlank).reverse.dropWhile isBlank).reverse

def trim (s : String) : String := .ofList (trimChars s.toList)

/-- A blank text is empty or white space throughout. -/
def isAllBlank (s : String) : Bool := s.toList.all isBlank

/-- The pieces of a text between the occurrences of a separator; one more than
there are separators. -/
def splitChars (separator : Char) : List Char → List (List Char)
  | [] => [[]]
  | c :: rest =>
    if c = separator then [] :: splitChars separator rest
    else match splitChars separator rest with
      | piece :: pieces => (c :: piece) :: pieces
      | [] => [[c]]

def split (separator : Char) (s : String) : List String :=
  (splitChars separator s.toList).map .ofList

/-- The text before and after the first occurrence of a separator, if any. -/
def cut? (separator : Char) (s : String) : Option (String × String) :=
  match s.toList.span (· ≠ separator) with
  | (before, _ :: after) => some (.ofList before, .ofList after)
  | (_, []) => none

theorem splitChars_ne_nil (separator : Char) (cs : List Char) :
    splitChars separator cs ≠ [] := by
  induction cs with
  | nil => simp [splitChars]
  | cons c rest ih =>
    unfold splitChars
    split
    · simp
    · split <;> simp

end Harbormaster.Text
