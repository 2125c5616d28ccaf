import Harbormaster.Failure
import Harbormaster.Notice
import Harbormaster.Text.Blank

/-!
The host of a command line: what commands need of the world around them, and how
they name files there.
-/

namespace Harbormaster.CommandLine

/-- Effects that a host provides. -/
structure Host (m : Type → Type) where
  say : Notice → m Unit
  /-- The contents of a file. -/
  fetch : String → m (Except Failure String)
  /-- Writes a file of the given path and contents. -/
  store : String → String → m (Except Failure Unit)
  /-- The directory from which relative paths start. -/
  directory : String
  /-- The file of the rule set that is used where none is named. -/
  standardRules : String

/-- Takes the next step of a path; the steps so far are in reverse order. -/
def walk (steps : List String) (step : String) : List String :=
  match step with
  | "" | "." => steps
  | ".." => steps.drop 1
  | name => name :: steps

def isAbsolute (path : String) : Bool := path.toList.head? = some '/'

/-- The path of a file named from a directory, without detours. -/
def resolvePath (directory path : String) : String :=
  let (whole, root) :=
    if isAbsolute path then (path, "/")
    else (directory ++ "/" ++ path, if isAbsolute directory then "/" else "")
  root ++ "/".intercalate ((Text.split '/' whole).foldl walk []).reverse

namespace Host

variable {m : Type → Type} [Monad m]

/-- Saves a document under a path. -/
def save (host : Host m) (path document : String) : m (Except Failure Unit) := do
  match ← host.store path document with
  | .ok () =>
    host.say (.plain ("Output saved to: " ++ path))
    return .ok ()
  | .error failure =>
    host.say (.error ("Error saving output to " ++ path ++ ": " ++ failure.shown))
    return .error failure

end Host

end Harbormaster.CommandLine
