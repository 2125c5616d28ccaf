/-!
Flags among the words of a command line. A scan takes out the flags it knows,
wherever they stand before a lone `--`, with their values: the next word, the
rest of a group of short flags, or the text after an equals sign. What is left
are operands up to the first unknown flag, and from there on words that another
scan may know.
-/

namespace Harbormaster.CommandLine

structure Flag where
  name : String
  short : Option Char
  takesValue : Bool
  deriving DecidableEq, Repr

/-- A flag as it was given, with its value if it takes one. -/
structure Given where
  flag : Flag
  value : String
  deriving DecidableEq, Repr

/-- What a scan found, in order. -/
structure Scan where
  given : List Given
  operands : List String
  unknown : List String
  /-- Whether the last word is a flag whose value is missing. -/
  valueMissing : Bool
  deriving DecidableEq, Repr

namespace Scan

def empty : Scan := ⟨[], [], [], false⟩

def addGiven (s : Scan) (flag : Flag) (value : String) : Scan :=
  { s with given := ⟨flag, value⟩ :: s.given }

/-- The value of a flag that was given last. -/
def last? (s : Scan) (name : String) : Option String :=
  (s.given.reverse.find? (·.flag.name = name)).map (·.value)

/-- All values of a flag. -/
def values (s : Scan) (name : String) : List String :=
  (s.given.filter (·.flag.name = name)).map (·.value)

def has (s : Scan) (name : String) : Bool := (s.last? name).isSome

end Scan

/-- A word that begins with a hyphen and does not end there. -/
def isFlagLike (word : String) : Bool :=
  match word.toList with
  | '-' :: _ :: _ => true
  | _ => false

/-- How a word reads among known flags. -/
inductive Reading where
  /-- A flag and nothing else. -/
  | whole (flag : Flag)
  /-- A flag with its value in the same word. -/
  | withValue (flag : Flag) (value : String)
  /-- A short flag without value, and the short flags after it. -/
  | group (flag : Flag) (rest : List Char)
  | unknown

def byLong? (flags : List Flag) (name : List Char) : Option Flag :=
  flags.find? (·.name.toList = name)

def byShort? (flags : List Flag) (c : Char) : Option Flag := flags.find? (·.short = some c)

/-- Reads the name of a long flag and what follows it. -/
def readLong (flags : List Flag) (cs : List Char) : Reading :=
  match byLong? flags cs with
  | some flag => .whole flag
  | none =>
    match cs.span (· ≠ '=') with
    | (name, _ :: value) =>
      match byLong? flags name with
      | some flag => if flag.takesValue then .withValue flag (.ofList value) else .unknown
      | none => .unknown
    | (_, []) => .unknown

/-- Reads a word; `cs` are its characters. -/
def read (flags : List Flag) (cs : List Char) : Reading :=
  match cs with
  | '-' :: '-' :: name => readLong flags name
  | ['-', c] =>
    match byShort? flags c with
    | some flag => .whole flag
    | none => .unknown
  | '-' :: c :: rest =>
    match byShort? flags c with
    | some flag => if flag.takesValue then .withValue flag (.ofList rest) else .group flag rest
    | none => .unknown
  | _ => .unknown

theorem length_of_group {flags : List Flag} {cs rest : List Char} {flag : Flag}
    (shape : read flags cs = .group flag rest) : rest.length + 2 ≤ cs.length := by
  unfold read readLong at shape
  grind

/-- Short flags without value that stand before the rest of their group; the
rest is a word of its own. -/
def ungroup (flags : List Flag) (cs : List Char) : List Flag × List Char :=
  match _shape : read flags cs with
  | .group flag rest =>
    let (more, left) := ungroup flags ('-' :: rest)
    (flag :: more, left)
  | _ => ([], cs)
termination_by cs.length
decreasing_by
  have shorter := length_of_group _shape
  simp only [List.length_cons]
  omega

/-- Scans words; `unknownBefore` tells whether an unknown flag came before. -/
def scanFrom (flags : List Flag) (unknownBefore : Bool) : List String → Scan
  | [] => Scan.empty
  | word :: rest =>
    let (grouped, left) := ungroup flags word.toList
    let word := String.ofList left
    let tail := match read flags left, rest with
      | .whole flag, value :: rest =>
        if flag.takesValue then (scanFrom flags unknownBefore rest).addGiven flag value
        else (scanFrom flags unknownBefore (value :: rest)).addGiven flag ""
      | .whole flag, [] =>
        if flag.takesValue then { Scan.empty with valueMissing := true }
        else Scan.empty.addGiven flag ""
      | .withValue flag value, rest => (scanFrom flags unknownBefore rest).addGiven flag value
      | _, rest =>
        if word = "--" then
          if unknownBefore then { Scan.empty with unknown := word :: rest }
          else { Scan.empty with operands := rest }
        else if unknownBefore || isFlagLike word then
          let after := scanFrom flags true rest
          { after with unknown := word :: after.unknown }
        else
          let after := scanFrom flags false rest
          { after with operands := word :: after.operands }
    grouped.foldr (fun flag scan => scan.addGiven flag "") tail
termination_by words => words.length

def scan (flags : List Flag) (words : List String) : Scan := scanFrom flags false words

end Harbormaster.CommandLine
