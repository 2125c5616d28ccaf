/-!
Notices: the lines that the library has for its operator. They are handed back
with the results, in order, and never printed by the library itself.
-/

namespace Harbormaster

inductive Channel where
  | debug | plain | warning | error
  deriving DecidableEq, Repr

structure Notice where
  channel : Channel
  text : String
  deriving DecidableEq, Repr

namespace Notice

def debug (text : String) : Notice := ⟨.debug, text⟩
def plain (text : String) : Notice := ⟨.plain, text⟩
def warning (text : String) : Notice := ⟨.warning, text⟩
def error (text : String) : Notice := ⟨.error, text⟩

end Notice

end Harbormaster
