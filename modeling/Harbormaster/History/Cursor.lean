import Harbormaster.History.Store

/-!
Cursors over a history. A cursor stands before the first commit or on one of
them; a move that leads nowhere leaves it where it is. Commits that are added
later are reached by moving on.
-/

namespace Harbormaster

structure Cursor where
  /-- The place of the commit under the cursor, none before the first move. -/
  position : Option Nat
  deriving DecidableEq, Repr

namespace Cursor

variable {ρ : Type}

def new : Cursor := ⟨none⟩

def current (c : Cursor) (commits : List (Commit ρ)) : Option (Commit ρ) :=
  c.position.bind (commits[·]?)

/-- Moves to a place, if there is a commit. -/
def moveTo (c : Cursor) (commits : List (Commit ρ)) (place : Nat) :
    Option (Commit ρ) × Cursor :=
  match commits[place]? with
  | some commit => (some commit, ⟨some place⟩)
  | none => (none, c)

def forward (c : Cursor) (commits : List (Commit ρ)) : Option (Commit ρ) × Cursor :=
  match c.position with
  | none => c.moveTo commits 0
  | some n => c.moveTo commits (n + 1)

def back (c : Cursor) (commits : List (Commit ρ)) : Option (Commit ρ) × Cursor :=
  match c.position with
  | some (n + 1) => c.moveTo commits n
  | _ => (none, c)

/-- Moves to the commit of a tick. -/
def seek (c : Cursor) (commits : List (Commit ρ)) (tick : Number) :
    Option (Commit ρ) × Cursor :=
  match commits.findIdx? (·.tick.eq tick) with
  | some place => c.moveTo commits place
  | none => (none, c)

end Cursor

end Harbormaster
