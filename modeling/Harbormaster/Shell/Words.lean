import Harbormaster.Text.Blank
import Harbormaster.Text.Lowercase

/-!
The words of a command. Words are separated by white space; a text in
single or double quotes belongs to a word whole, with the white space in it, and
a quote without a partner is passed over. The first word names the command, in
small letters, and an argument that begins and ends with the same kind of quote
loses this pair.
-/

namespace Harbormaster.Shell

/-- A command with its arguments. -/
structure Command where
  name : String
  arguments : List String
  deriving DecidableEq, Repr

def isQuote (c : Char) : Bool := c == '"' || c == '\''

def isPlain (c : Char) : Bool := !Text.isBlank c && !isQuote c

/-- The piece of a word at the start of a text: a run of plain characters or a
quoted text with its quotes. -/
def piece? (cs : List Char) : Option (List Char × List Char) :=
  match cs with
  | [] => none
  | c :: rest =>
    if isQuote c then
      match rest.dropWhile (· ≠ c) with
      | _ :: after => some (c :: rest.takeWhile (· ≠ c) ++ [c], after)
      | [] => none
    else if isPlain c then some (cs.takeWhile isPlain, cs.dropWhile isPlain)
    else none

theorem length_of_piece? {cs piece after : List Char} (found : piece? cs = some (piece, after)) :
    after.length < cs.length := by
  unfold piece? at found
  split at found
  · cases found
  · rename_i c rest
    split at found
    · have fewer := (List.dropWhile_sublist (l := rest) (fun x => decide (x ≠ c))).length_le
      split at found
      · rename_i tail shape
        cases found
        rw [shape] at fewer
        simp only [List.length_cons] at fewer ⊢
        omega
      · cases found
    · split at found
      · rename_i plain
        cases found
        have fewer := (List.dropWhile_sublist (l := rest) isPlain).length_le
        simp only [List.dropWhile_cons, plain, if_true, List.length_cons]
        omega
      · cases found

/-- The word at the start of a text, empty if none begins there, and what
follows it. -/
def word (cs : List Char) : List Char × List Char :=
  match _found : piece? cs with
  | some (piece, after) => (piece ++ (word after).1, (word after).2)
  | none => ([], cs)
termination_by cs.length
decreasing_by all_goals exact length_of_piece? _found

theorem length_word_le (cs : List Char) : (word cs).2.length ≤ cs.length := by
  fun_induction word cs with
  | case1 cs piece after found ih =>
    have shorter := length_of_piece? found
    dsimp only
    omega
  | case2 => exact Nat.le_refl _

theorem length_word_lt {cs : List Char} (found : (word cs).1 ≠ []) :
    (word cs).2.length < cs.length := by
  rw [word.eq_1] at found ⊢
  split
  · rename_i piece after shape
    have shorter := length_of_piece? shape
    have rest := length_word_le after
    dsimp only
    omega
  · rename_i none
    split at found
    · simp_all
    · exact absurd rfl found

/-- All words of a text. -/
def words (cs : List Char) : List (List Char) :=
  match cs with
  | [] => []
  | c :: rest =>
    if _found : (word (c :: rest)).1 = [] then words rest
    else (word (c :: rest)).1 :: words (word (c :: rest)).2
termination_by cs.length
decreasing_by
  · exact Nat.lt_succ_self _
  · exact length_word_lt _found

/-- Takes off a pair of equal quotes around a word. -/
def unquote (word : List Char) : List Char :=
  match word, word.getLast? with
  | c :: rest, some last => if isQuote c && c == last then rest.dropLast else word
  | _, _ => word

/-- Reads a line as a command and its arguments. -/
def Command.ofText (line : String) : Command :=
  match words line.toList with
  | [] => ⟨"", []⟩
  | name :: arguments =>
    ⟨Text.lowercase (.ofList name), arguments.map fun a => .ofList (unquote a)⟩

end Harbormaster.Shell
