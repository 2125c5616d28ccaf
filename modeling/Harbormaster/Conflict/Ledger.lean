import Harbormaster.Conflict.Resolution
import Harbormaster.World.Cell

/-!
The ledger of a tick: every cell that rules have written, with its writers, and
the conflicts so far. A write goes straight to the world while only one rule has
written its cell; from the second rule on each write is a conflict, settled by
the strategy in force.
-/

namespace Harbormaster

structure Ledger where
  policy : Policy
  tick : Value
  /-- The cells written in this tick, by the text of their paths. -/
  entries : Record CellEntry
  /-- The conflicts of this tick, in order. -/
  records : List ConflictRecord

/-- What a write leaves behind. -/
structure WriteOutcome where
  /-- The value of the cell after the write, missing when it is unset. -/
  value : Value
  conflict : Option ConflictRecord

/-- An attempted write: the ledger and the world after it, whether it went
through or failed. -/
structure WriteAttempt where
  ledger : Ledger
  world : World
  outcome : Except Failure WriteOutcome
  notices : List Notice

namespace Ledger

def new (policy : Policy) : Ledger := ⟨policy, 0, ∅, []⟩

/-- Starts a tick with nothing written. -/
def beginTick (l : Ledger) (tick : Value) : Ledger := { l with tick, entries := ∅, records := [] }

/-- The strategy that a conflicting write calls for: a cell under review stays
there; else the action's metadata decides, then the rule's, then the lists of the
policy. -/
def calledFor? (l : Ledger) (entry : CellEntry) (incoming : WriteRequest) : Option Strategy :=
  if entry.underReview then some .manualReview
  else (incoming.action.strategy?.or incoming.ruleMetadata.strategy?).or <|
    let involved := entry.writers.map (·.ruleId) ++ [incoming.ruleId]
    if involved.any l.policy.manualReviewRules.contains then some .manualReview
    else if !l.policy.mergeRules.isEmpty && involved.all l.policy.mergeRules.contains then
      some .merge
    else none

/-- The strategy for a conflicting write, that of the policy unless another one is
called for. -/
def strategyFor (l : Ledger) (entry : CellEntry) (incoming : WriteRequest) : Strategy :=
  (l.calledFor? entry incoming).getD l.policy.strategy

/-- Keeps the first occurrence of every rule. -/
def distinct (ids : List String) : List String :=
  ids.foldl (fun seen id => if seen.contains id then seen else seen ++ [id]) []

/-- The entry of a cell that is written for the first time. -/
def firstEntry (base : Value) (request : WriteRequest) : CellEntry :=
  { base
    value := request.value
    holder := some request.ruleId
    holderPriority := request.priority
    writers := [request]
    scalar := request.scalar?
    range := request.range
    mergedRules := []
    underReview := false }

/-- The entry after a further write by the only rule that has written the cell. -/
def updatedEntry (entry : CellEntry) (request : WriteRequest) : CellEntry :=
  { entry with
    writers := entry.writers ++ [request]
    value := request.value
    scalar := request.scalar?
    range := request.range }

/-- The entry after a conflict; `entry` lists the incoming write already. -/
def settledEntry (entry : CellEntry) (resolution : Resolution) : CellEntry :=
  { entry with
    value := resolution.value
    holder := resolution.holder
    holderPriority := resolution.holderPriority
    scalar := resolution.scalar
    range := resolution.range
    mergedRules := resolution.mergedRules
    underReview := entry.underReview || !resolution.resolved }

/-- The record of a conflict; `entry` lists the incoming write already. -/
def recordOf (l : Ledger) (path : String) (entry : CellEntry) (resolution : Resolution) :
    ConflictRecord :=
  { id := "conflict-" ++ l.tick.plainText ++ "-" ++ (l.records.length + 1).repr
    path
    timestamp := l.tick
    conflictingRules := distinct (entry.writers.map (·.ruleId))
    conflictingActions := entry.writers.map (·.action)
    strategy := resolution.strategy
    result :=
      { finalValue := resolution.value.marked
        keptRule := resolution.holder
        mergedRules := resolution.mergedRules
        fallbackFrom := resolution.fallbackFrom
        note := resolution.note }
    resolved := resolution.resolved }

def recordNotice (r : ConflictRecord) : Notice :=
  .debug ("ConflictResolver: " ++ r.id ++ " on \"" ++ r.path ++ "\" between [" ++
    ", ".intercalate r.conflictingRules ++ "] -> " ++ r.strategy.text ++
    (if r.resolved then "" else " (unresolved)") ++ ".")

/-- Gives a cell the value that a conflict ended in. -/
def apply (w : World) (path : String) : Value → Except Failure World
  | .missing => w.unset path
  | value => w.write path value

def put (l : Ledger) (path : String) (entry : CellEntry) : Ledger :=
  { l with entries := l.entries.set path entry }

def writeFirst (l : Ledger) (w : World) (request : WriteRequest) : WriteAttempt :=
  match w.peek request.path with
  | .error failure => ⟨l, w, .error failure, []⟩
  | .ok base =>
    match w.write request.path request.value with
    | .error failure => ⟨l, w, .error failure, []⟩
    | .ok world =>
      ⟨l.put request.path (firstEntry base request), world, .ok ⟨request.value, none⟩, []⟩

def writeAgain (l : Ledger) (w : World) (entry : CellEntry) (request : WriteRequest) :
    WriteAttempt :=
  match w.write request.path request.value with
  | .error failure => ⟨l, w, .error failure, []⟩
  | .ok world =>
    ⟨l.put request.path (updatedEntry entry request), world, .ok ⟨request.value, none⟩, []⟩

/-- A conflicting write is listed among the writers of its cell before its
outcome is applied, and stays listed when the cell refuses the outcome. -/
def writeConflicting (l : Ledger) (w : World) (entry : CellEntry) (request : WriteRequest) :
    WriteAttempt :=
  let (resolution, notices) := (l.strategyFor entry request).resolve entry request
  let listed := { entry with writers := entry.writers ++ [request] }
  match apply w request.path resolution.value with
  | .error failure =>
    ⟨l.put request.path listed, w, .error failure,
      notices ++ [.error ("ConflictResolver: Failed to commit resolved value for " ++
        request.path ++ ": " ++ failure.message)]⟩
  | .ok world =>
    let record := l.recordOf request.path listed resolution
    let settled := l.put request.path (settledEntry listed resolution)
    ⟨{ settled with records := l.records ++ [record] }, world,
      .ok ⟨resolution.value, some record⟩, notices ++ [recordNotice record]⟩

/-- Writes a cell on behalf of a rule. -/
def write (l : Ledger) (w : World) (request : WriteRequest) : WriteAttempt :=
  match l.entries.get? request.path with
  | none => l.writeFirst w request
  | some entry =>
    if entry.writers.all (·.ruleId = request.ruleId) then l.writeAgain w entry request
    else l.writeConflicting w entry request

end Ledger

end Harbormaster
