import Harbormaster.Action.Execution

/-!
The ends that a write can come to. A cell that only one rule has written takes a
further write of that rule or refuses it, and the ledger follows. From the second
rule on a write is settled as a conflict, and there the ledger lists it before
the cell has taken what the conflict ended in.
-/

namespace Harbormaster

/-- Whether one rule has made all the writes that a cell knows of. -/
def CellEntry.SoleWriter (entry : CellEntry) (rule : String) : Prop :=
  ∀ writer ∈ entry.writers, writer.ruleId = rule

/-- A cell with one more write among those it knows of. -/
def CellEntry.listing (entry : CellEntry) (request : WriteRequest) : CellEntry :=
  { entry with writers := entry.writers ++ [request] }

theorem CellEntry.listing_ne (entry : CellEntry) (request : WriteRequest) :
    entry.listing request ≠ entry := by
  intro heq
  have hlength : (entry.writers ++ [request]).length = entry.writers.length :=
    congrArg (fun e : CellEntry => e.writers.length) heq
  rw [List.length_append, List.length_singleton] at hlength
  omega

namespace Ledger

theorem get?_put (l : Ledger) (path : String) (entry : CellEntry) (other : String) :
    (l.put path entry).entries.get? other =
      if other = path then some entry else l.entries.get? other := by
  simp only [put, Record.get?_set]

def resolution (l : Ledger) (entry : CellEntry) (request : WriteRequest) : Resolution :=
  ((l.strategyFor entry request).resolve entry request).1

def settled (l : Ledger) (entry : CellEntry) (request : WriteRequest) : Ledger :=
  { l.put request.path (settledEntry (entry.listing request) (l.resolution entry request)) with
    records := l.records ++
      [l.recordOf request.path (entry.listing request) (l.resolution entry request)] }

/-- The ends of a write, with what they leave of the ledger and of the world. -/
inductive End (l : Ledger) (w : World) (request : WriteRequest) :
    Ledger → World → Except Failure WriteOutcome → Prop where
  /-- The cell refuses the value as it is. -/
  | refused (failure : Failure)
      (hsole : ∀ entry, l.entries.get? request.path = some entry →
        entry.SoleWriter request.ruleId) : End l w request l w (.error failure)
  /-- The first write of the cell in the tick. -/
  | opened {base : Value} {world : World} (hfresh : l.entries.get? request.path = none)
      (hbase : w.peek request.path = .ok base)
      (hworld : w.write request.path request.value = .ok world) :
      End l w request (l.put request.path (firstEntry base request)) world
        (.ok ⟨request.value, none⟩)
  /-- A further write of the only rule that has written the cell. -/
  | updated {entry : CellEntry} {world : World}
      (hentry : l.entries.get? request.path = some entry)
      (hsole : entry.SoleWriter request.ruleId)
      (hworld : w.write request.path request.value = .ok world) :
      End l w request (l.put request.path (updatedEntry entry request)) world
        (.ok ⟨request.value, none⟩)
  /-- A conflict whose outcome the cell refuses. -/
  | withheld {entry : CellEntry} {failure : Failure}
      (hentry : l.entries.get? request.path = some entry)
      (hothers : ¬ entry.SoleWriter request.ruleId)
      (hrefused : apply w request.path (l.resolution entry request).value = .error failure) :
      End l w request (l.put request.path (entry.listing request)) w (.error failure)
  /-- A conflict that has been settled. -/
  | settled {entry : CellEntry} {world : World}
      (hentry : l.entries.get? request.path = some entry)
      (hothers : ¬ entry.SoleWriter request.ruleId)
      (hworld : apply w request.path (l.resolution entry request).value = .ok world) :
      End l w request (l.settled entry request) world
        (.ok ⟨(l.resolution entry request).value,
          some (l.recordOf request.path (entry.listing request) (l.resolution entry request))⟩)

theorem end_writeFirst {l : Ledger} {w : World} {request : WriteRequest}
    (hfresh : l.entries.get? request.path = none) :
    End l w request (l.writeFirst w request).ledger (l.writeFirst w request).world
      (l.writeFirst w request).outcome := by
  have hsole : ∀ entry, l.entries.get? request.path = some entry →
      entry.SoleWriter request.ruleId := by
    intro entry hentry
    rw [hfresh] at hentry
    cases hentry
  unfold writeFirst
  split
  · rename_i failure _
    exact .refused failure hsole
  · rename_i base hbase
    split
    · rename_i failure _
      exact .refused failure hsole
    · rename_i world hworld
      exact .opened hfresh hbase hworld

theorem end_writeAgain {l : Ledger} {w : World} {request : WriteRequest} {entry : CellEntry}
    (hentry : l.entries.get? request.path = some entry)
    (hsole : entry.SoleWriter request.ruleId) :
    End l w request (l.writeAgain w entry request).ledger (l.writeAgain w entry request).world
      (l.writeAgain w entry request).outcome := by
  unfold writeAgain
  split
  · rename_i failure _
    apply End.refused failure
    intro other hother
    rw [hentry] at hother
    cases hother
    exact hsole
  · rename_i world hworld
    exact .updated hentry hsole hworld

theorem end_writeConflicting {l : Ledger} {w : World} {request : WriteRequest}
    {entry : CellEntry} (hentry : l.entries.get? request.path = some entry)
    (hothers : ¬ entry.SoleWriter request.ruleId) :
    End l w request (l.writeConflicting w entry request).ledger
      (l.writeConflicting w entry request).world
      (l.writeConflicting w entry request).outcome := by
  unfold writeConflicting
  dsimp only
  split
  · rename_i failure hrefused
    exact .withheld hentry hothers hrefused
  · rename_i world hworld
    exact .settled hentry hothers hworld

/-- Every write comes to one of these ends. -/
theorem end_write (l : Ledger) (w : World) (request : WriteRequest) :
    End l w request (l.write w request).ledger (l.write w request).world
      (l.write w request).outcome := by
  unfold write
  split
  · rename_i hfresh
    exact end_writeFirst hfresh
  · rename_i entry hentry
    have hsole : entry.writers.all (·.ruleId = request.ruleId) = true ↔
        entry.SoleWriter request.ruleId := by
      simp [CellEntry.SoleWriter]
    split
    · rename_i hall
      exact end_writeAgain hentry (hsole.mp hall)
    · rename_i hall
      exact end_writeConflicting hentry (mt hsole.mpr hall)

end Ledger

/-- A write is told of with its value and, if there was one, its conflict; only the message
may say more. -/
theorem Application.written_eq (action : Action) (before : Value) (outcome : WriteOutcome)
    (message : String) : ∃ text, written action before outcome message =
      { plain action before outcome.value.marked text with
        conflictId := outcome.conflict.map (·.id) } := by
  refine ⟨(written action before outcome message).message, ?_⟩
  obtain ⟨value, conflict⟩ := outcome
  cases conflict with
  | none | some => rfl

namespace Stage

/-- What a rule asks to write by an action. -/
def requestOf (rule : Rule) (action : Action) (target : String) (value : Value)
    (range : Option ClampRange) : WriteRequest :=
  { path := target, value, ruleId := rule.id, priority := rule.priority, action
    ruleMetadata := rule.metadata, range }

inductive Wrote (s : Stage) (request : WriteRequest) (before : Value) (message : String) :
    Stage → Except Failure Application → Prop where
  | intro {ledger : Ledger} {world : World} {outcome : Except Failure WriteOutcome}
      (hend : Ledger.End s.ledger s.world request ledger world outcome) :
      Wrote s request before message { s with ledger, world }
        (outcome.map (Application.written request.action before · message))

theorem wrote_performWrite (s : Stage) (rule : Rule) (action : Action) (target : String)
    (value : Value) (range : Option ClampRange) (before : Value) (message : String) :
    Wrote s (requestOf rule action target value range) before message
      (s.performWrite rule action target value range before message).stage
      (s.performWrite rule action target value range before message).result :=
  ⟨Ledger.end_write s.ledger s.world (requestOf rule action target value range)⟩

end Stage

end Harbormaster
