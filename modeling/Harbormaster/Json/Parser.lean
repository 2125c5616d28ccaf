import Harbormaster.Json.Token
import Harbormaster.Value.Basic

/-!
Reading a JSON text as a value. Tokens are read one by one against a stack of
the lists and records that are still open, so every text is read in one pass
over its tokens. A name that is repeated in a record keeps its first place and
its last value.
-/

namespace Harbormaster.Json

/-- A list or record that is still open. Items are in reverse order. -/
inductive Frame where
  | items (read : List Value)
  | members (read : Record Value) (name : String)

/-- What may come next. -/
inductive Expected where
  | value
  | valueOrCloseList
  | name (read : Record Value)
  | nameOrCloseRecord
  | colon (read : Record Value) (name : String)
  /-- A complete value has been read. -/
  | done (value : Value)

structure ParseState where
  stack : List Frame
  expected : Expected

def beginValue (stack : List Frame) (token : Token) : Option ParseState :=
  match token with
  | .text s => some ⟨stack, .done (.text s)⟩
  | .number n => some ⟨stack, .done (.number n)⟩
  | .boolean b => some ⟨stack, .done (.boolean b)⟩
  | .null => some ⟨stack, .done .absent⟩
  | .openList => some ⟨stack, .valueOrCloseList⟩
  | .openRecord => some ⟨stack, .nameOrCloseRecord⟩
  | _ => none

/-- A token after a complete value: it separates or closes. -/
def afterValue (stack : List Frame) (value : Value) (token : Token) : Option ParseState :=
  match stack, token with
  | .items read :: stack, .comma => some ⟨.items (value :: read) :: stack, .value⟩
  | .items read :: stack, .closeList => some ⟨stack, .done (.list (value :: read).reverse)⟩
  | .members read name :: stack, .comma => some ⟨stack, .name (read.set name value)⟩
  | .members read name :: stack, .closeRecord =>
    some ⟨stack, .done (.record (read.set name value))⟩
  | _, _ => none

def parseStep (state : ParseState) (token : Token) : Option ParseState :=
  match state.expected, token with
  | .value, _ => beginValue state.stack token
  | .valueOrCloseList, .closeList => some ⟨state.stack, .done (.list [])⟩
  | .valueOrCloseList, _ => beginValue (.items [] :: state.stack) token
  | .name read, .text name => some ⟨state.stack, .colon read name⟩
  | .nameOrCloseRecord, .text name => some ⟨state.stack, .colon ∅ name⟩
  | .nameOrCloseRecord, .closeRecord => some ⟨state.stack, .done (.record ∅)⟩
  | .colon read name, .colon => some ⟨.members read name :: state.stack, .value⟩
  | .done value, _ => afterValue state.stack value token
  | _, _ => none

def parseFrom (state : ParseState) : List Token → Option Value
  | [] =>
    match state with
    | ⟨[], .done value⟩ => some value
    | _ => none
  | token :: rest => (parseStep state token).bind (parseFrom · rest)

/-- The value that a JSON text holds. -/
def parse? (s : String) : Option Value :=
  (scan? s).bind (parseFrom ⟨[], .value⟩)

end Harbormaster.Json
