import Harbormaster.Text.Blank
import Harbormaster.Value.Written

/-!
Message templates. A placeholder is a name in double braces, with white space
around it if desired; it is replaced by the value of that name. Names without a
value are left as they stand and reported. The text that replaces a placeholder
is not searched again.
-/

namespace Harbormaster.Template

/-- A piece of a template: text to copy, or a placeholder with its own text. -/
inductive Piece where
  | literal (c : Char)
  | placeholder (name : String) (written : List Char)
  deriving DecidableEq

def isBrace (c : Char) : Bool := c == '\x7b' || c == '\x7d'

/-- The name in a placeholder whose braces enclose the given text. White space
around the name is dropped; of white space alone the last character is the
name. -/
def placeholderName (inner : List Char) : List Char :=
  match Text.trimChars inner with
  | [] => inner.getLast?.toList
  | name => name

/-- The placeholder at the start of a text, as the text between its braces and
what follows it. -/
def placeholder? (cs : List Char) : Option (List Char × List Char) :=
  match cs with
  | '\x7b' :: '\x7b' :: rest =>
    let inner := rest.takeWhile (!isBrace ·)
    match rest.dropWhile (!isBrace ·) with
    | '\x7d' :: '\x7d' :: after => if inner.isEmpty then none else some (inner, after)
    | _ => none
  | _ => none

theorem length_of_placeholder? {cs inner after : List Char}
    (found : placeholder? cs = some (inner, after)) : after.length < cs.length := by
  unfold placeholder? at found
  split at found
  · rename_i rest
    have fewer := (List.dropWhile_sublist (l := rest) (!isBrace ·)).length_le
    dsimp only at found
    split at found
    · rename_i tail shape
      rw [shape] at fewer
      split at found
      · cases found
      · cases found
        simp only [List.length_cons] at fewer ⊢
        omega
    · cases found
  · cases found

/-- The pieces of a template, from left to right. -/
def pieces (cs : List Char) : List Piece :=
  match cs with
  | [] => []
  | c :: rest =>
    match _found : placeholder? (c :: rest) with
    | some (inner, after) =>
      .placeholder (.ofList (placeholderName inner))
        ('\x7b' :: '\x7b' :: inner ++ ['\x7d', '\x7d']) :: pieces after
    | none => .literal c :: pieces rest
termination_by cs.length
decreasing_by
  · exact length_of_placeholder? _found
  · exact Nat.lt_succ_self _

structure Expansion where
  message : String
  /-- Names without a value, in order of their first appearance. -/
  unresolved : List String

/-- The text of a piece once values are known. -/
def Piece.expand (values : Record Value) : Piece → List Char
  | .literal c => [c]
  | .placeholder name written =>
    match values.get? name with
    | some value => value.templateText.toList
    | none => written

def Piece.unresolved? (values : Record Value) : Piece → Option String
  | .literal _ => none
  | .placeholder name _ => if values.contains name then none else some name

/-- Keeps the first occurrence of every text. -/
def firstOccurrences (names : List String) : List String :=
  names.foldl (fun seen name => if seen.contains name then seen else seen ++ [name]) []

/-- Replaces the placeholders of a template by the values of their names. -/
def expand (template : String) (values : Record Value) : Expansion :=
  let pieces := pieces template.toList
  { message := .ofList (pieces.flatMap (·.expand values))
    unresolved := firstOccurrences (pieces.filterMap (·.unresolved? values)) }

end Harbormaster.Template
