import Harbormaster.Json.Parser
import Harbormaster.Notice
import Harbormaster.Rule.Document

/-!
Rule sets in files. A rule set that has been loaded is kept, so its file is read
once; after a failure the file is read again.
-/

namespace Harbormaster

/-- The rule set in a file of the given path and contents. -/
def RuleSet.ofFile (path : String) (contents : Except Failure String) : Except Failure RuleSet :=
  match contents with
  | .error failure => .error (.document (.unreadable path failure.message))
  | .ok text =>
    match Json.parse? text with
    | none => .error (.document (.unreadable path DocumentFault.notJson.message))
    | some document => RuleSet.ofDocument document ("rule file " ++ path)

structure RuleFile where
  path : String
  loaded : Option RuleSet

namespace RuleFile

def new (path : String) : RuleFile := ⟨path, none⟩

def loadedNotice (f : RuleFile) (rules : RuleSet) : Notice :=
  .debug ("RuleSetService: Loaded " ++ rules.rules.length.repr ++ " rule(s) from " ++ f.path ++ ".")

/-- Loads the rule set; the contents matter only while the file is unread. -/
def load (f : RuleFile) (contents : Except Failure String) :
    Except Failure RuleSet × RuleFile × List Notice :=
  match f.loaded with
  | some rules => (.ok rules, f, [])
  | none =>
    match RuleSet.ofFile f.path contents with
    | .ok rules => (.ok rules, { f with loaded := some rules }, [f.loadedNotice rules])
    | .error failure => (.error failure, f, [])

end RuleFile

end Harbormaster
