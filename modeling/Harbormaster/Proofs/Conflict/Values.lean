import Harbormaster.Proofs.Conflict.Ends
import Harbormaster.Proofs.World.Cells

/-!
The values that a ledger deals in. A cell gets the value of a write, the value that
it had, the value that it had before the tick or a number; so as long as the
numbers are finite the ledger only knows of values that a document keeps.
-/

namespace Harbormaster

theorem Value.ne_absent_of_isCell {v : Value} (h : v.isCell = true) : v ≠ .absent := by
  rintro rfl
  cases h

/-- What is there is marked as itself, and what was never given is a cell as well. -/
theorem Value.isCell_of_marked {v : Value} (hsome : v ≠ .absent)
    (h : v.marked = .absent ∨ v.marked.isCell = true) : v.isCell = true := by
  cases v with
  | missing => rfl
  | absent => exact absurd rfl hsome
  | boolean | number | text | list | record | native | fallback =>
    rcases h with hnone | hcell
    · cases hnone
    · exact hcell

theorem World.Sound.isCell_of_peek {w : World} (h : w.Sound) {text : String}
    (htext : Path.Ordinary text) {v : Value} (hpeek : w.peek text = .ok v) : v.isCell = true := by
  obtain ⟨path, hparse, hat⟩ := (World.require_bind_eq_ok_iff _ _ _).mp hpeek
  have hname := Path.ne_baseName_of_isOrdinary (htext path hparse)
  have hroot : (Value.native .root).property? path.name = none :=
    Option.isNone_iff_eq_none.mp (htext path hparse)
  obtain ⟨r, hr, rfl⟩ := World.peekAt_eq_ok_iff.mp hat
  have hsound := h.container hr
  rw [Record.answer_of_own hname (hsound.base ▸ hroot), Record.member]
  cases hget : r.get? path.name with
  | none => rfl
  | some v => exact hsound.cells path.name v hget

namespace Ledger

variable {l l' : Ledger} {w w' : World} {request : WriteRequest} {entry : CellEntry}
  {outcome : WriteOutcome}

def Sound (l : Ledger) : Prop :=
  ∀ path entry, l.entries.get? path = some entry →
    entry.base.isCell = true ∧ entry.value.isCell = true

theorem Sound.put (h : l.Sound) {path : String} (hbase : entry.base.isCell = true)
    (hvalue : entry.value.isCell = true) : (l.put path entry).Sound := by
  intro other held hheld
  simp only [Ledger.put, Record.get?_set] at hheld
  split at hheld
  · cases hheld
    exact ⟨hbase, hvalue⟩
  · exact h other held hheld

/-- Where the value of a cell comes from after a conflict. -/
theorem resolution_value (l : Ledger) (entry : CellEntry) (request : WriteRequest) :
    (l.resolution entry request).value = request.value ∨
      (l.resolution entry request).value = entry.value ∨
      (l.resolution entry request).value = entry.base ∨
      ∃ n, (l.resolution entry request).value = .number n := by
  simp only [resolution, Strategy.resolve]
  generalize (l.strategyFor entry request).judge entry request = judgement
  obtain ⟨verdict, strategy, obstacle⟩ := judgement
  have hsame : (Resolution.ofJudgement entry request ⟨verdict, strategy, obstacle⟩).value =
      (Resolution.ofVerdict strategy entry request verdict).value := by
    cases obstacle with
    | none | some => rfl
  rw [hsame]
  cases verdict with
  | taken => exact .inl rfl
  | kept => exact .inr (.inl rfl)
  | reverted => exact .inr (.inr (.inl rfl))
  | merged value => exact .inr (.inr (.inr ⟨value, rfl⟩))

/-- A write that goes through leaves something, or what was never given. -/
theorem ne_absent_of_end (hl : l.Sound) (hrequest : request.value ≠ .absent)
    (hend : End l w request l' w' (.ok outcome)) : outcome.value ≠ .absent := by
  cases hend with
  | opened | updated => exact hrequest
  | @settled entry _ hentry =>
    obtain ⟨hbase, hvalue⟩ := hl _ _ hentry
    rcases l.resolution_value entry request with hval | hval | hval | ⟨n, hval⟩
    · rw [hval]
      exact hrequest
    · rw [hval]
      exact Value.ne_absent_of_isCell hvalue
    · rw [hval]
      exact Value.ne_absent_of_isCell hbase
    · rw [hval]
      exact Value.noConfusion

theorem Sound.of_end {result : Except Failure WriteOutcome} (hl : l.Sound) (hw : w.Sound)
    (htext : ∀ outcome, result = .ok outcome → Path.Ordinary request.path)
    (hvalue : ∀ outcome, result = .ok outcome → outcome.value.isCell = true)
    (hend : End l w request l' w' result) : l'.Sound := by
  cases hend with
  | refused => exact hl
  | opened _ hbase => exact hl.put (hw.isCell_of_peek (htext _ rfl) hbase) (hvalue _ rfl)
  | updated hentry => exact hl.put (hl _ _ hentry).1 (hvalue _ rfl)
  | withheld hentry => exact hl.put (hl _ _ hentry).1 (hl _ _ hentry).2
  | @settled entry _ hentry =>
    have hput : (l.put request.path
        (settledEntry (entry.listing request) (l.resolution entry request))).Sound :=
      hl.put (hl _ _ hentry).1 (hvalue _ rfl)
    exact hput

/-- What goes through is written, or taken back where the cell was not there. -/
theorem world_of_end (hend : End l w request l' w' (.ok outcome)) :
    w.write request.path outcome.value = .ok w' ∨
      (outcome.value = .missing ∧ w.unset request.path = .ok w') := by
  cases hend with
  | opened _ _ hworld => exact .inl hworld
  | updated _ _ hworld => exact .inl hworld
  | @settled entry _ _ _ hworld =>
    dsimp only
    generalize (l.resolution entry request).value = value at hworld
    cases value with
    | missing => exact .inr ⟨rfl, hworld⟩
    | absent | boolean | number | text | list | record | native | fallback => exact .inl hworld

end Ledger

end Harbormaster
