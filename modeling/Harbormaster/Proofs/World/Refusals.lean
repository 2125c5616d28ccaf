import Harbormaster.Action.Execution

/-!
Why a cell refuses to be read or written. A path is refused for what the world does not
have, or for a value that its container does not take; only a text that is no path is
malformed, and only an event is never written.
-/

namespace Harbormaster

theorem error_of_bind {α β : Type} {x : Except Failure α} {f : α → Except Failure β}
    {failure : Failure} (h : x >>= f = .error failure) :
    x = .error failure ∨ ∃ a, x = .ok a ∧ f a = .error failure := by
  cases x with
  | error first =>
    cases h
    exact .inl rfl
  | ok a => exact .inr ⟨a, rfl, h⟩

theorem error_of_map {α β : Type} {x : Except Failure α} {f : α → β} {failure : Failure}
    (h : x.map f = .error failure) : x = .error failure := by
  cases x with
  | error first =>
    cases h
    rfl
  | ok a => cases h

def Path.isCell : Path → Bool
  | .event .. => false
  | _ => true

def PathFault.isGap : PathFault → Bool
  | .noAgent _ | .noAgentField .. | .noEnvironmentField _ | .noMetric _ => true
  | .malformed | .readOnly | .remark _ => false

namespace World

variable {w : World} {path : Path} {text : String} {value : Value} {failure : Failure}

theorem error_of_require {α : Type} {f : Path → Except Failure α}
    (h : (Path.require text).bind f = .error failure) :
    (Path.parse? text = none ∧ failure = .unknownPath text (some .malformed)) ∨
      ∃ path, Path.parse? text = some path ∧ f path = .error failure := by
  unfold Path.require at h
  cases hparse : Path.parse? text with
  | none =>
    rw [hparse] at h
    cases h
    exact .inl ⟨rfl, rfl⟩
  | some path =>
    rw [hparse] at h
    exact .inr ⟨path, rfl, h⟩

/-- What cannot be read at a path is not there, or something without members stands in its
place. -/
theorem gap_of_readAt (h : w.readAt path = .error failure) :
    (∃ fault : PathFault, failure = .unknownPath path.render (some fault) ∧ fault.isGap = true) ∨
      ∃ fault, failure = .access fault := by
  cases path with
  | agentField agent field =>
    simp only [readAt] at h
    split at h
    · cases h
      unfold noAgent
      split
      · exact .inr ⟨_, rfl⟩
      · exact .inl ⟨_, rfl, rfl⟩
    · split at h
      · cases h
        exact .inl ⟨_, rfl, rfl⟩
      · cases h
  | environmentField | metric =>
    simp only [readAt] at h
    split at h
    · cases h
      exact .inl ⟨_, rfl, rfl⟩
    · cases h
  | event eventType key =>
    simp only [readAt] at h
    split at h
    · cases h
    · cases h
    · unfold Value.readEvent at h
      split at h
      · cases h
      · dsimp only at h
        split at h
        · cases h
        · cases h
          exact .inr ⟨_, rfl⟩

inductive Refuses (w : World) : Failure → Prop where
  | noAgent {agent : String} (fault : AccessFault) (hagent : w.agents.get? agent = none) :
      Refuses w (noAgent agent fault (.unknownAgent agent))
  | mismatch (cause : TypeMismatch) : Refuses w (.typeMismatch cause)

theorem refuses_of_peekAt (hcell : path.isCell = true) (h : w.peekAt path = .error failure) :
    w.Refuses failure := by
  cases path with
  | event => cases hcell
  | environmentField | metric => cases h
  | agentField agent field =>
    simp only [peekAt] at h
    split at h
    · rename_i hagent
      cases h
      exact .noAgent _ hagent
    · cases h

theorem refuses_of_writeAt (hcell : path.isCell = true)
    (h : w.writeAt path value = .error failure) : w.Refuses failure := by
  cases path with
  | event => cases hcell
  | environmentField field =>
    simp only [writeAt] at h
    split at h
    · cases h
    · cases h
      exact .mismatch _
  | metric name =>
    simp only [writeAt] at h
    split at h
    · split at h
      · cases h
      · cases h
        exact .mismatch _
    · cases h
      exact .mismatch _
  | agentField agent field =>
    simp only [writeAt] at h
    split at h
    · rename_i hagent
      cases h
      exact .noAgent _ hagent
    · cases h

theorem refuses_of_unsetAt (hcell : path.isCell = true) (h : w.unsetAt path = .error failure) :
    w.Refuses failure := by
  cases path with
  | event => cases hcell
  | environmentField | metric => cases h
  | agentField agent field =>
    simp only [unsetAt] at h
    split at h
    · rename_i hagent
      cases h
      exact .noAgent _ hagent
    · cases h

section Texts

variable (hcell : (Path.parse? text).any Path.isCell = true)

include hcell

theorem refuses_of_require {α : Type} {f : Path → Except Failure α}
    (hf : ∀ path, path.isCell = true → f path = .error failure → w.Refuses failure)
    (h : (Path.require text).bind f = .error failure) : w.Refuses failure := by
  rcases error_of_require h with ⟨hnone, -⟩ | ⟨path, hparse, herror⟩
  · rw [hnone] at hcell
    cases hcell
  · rw [hparse] at hcell
    exact hf path hcell herror

theorem refuses_of_current (h : w.current text = .error failure) : w.Refuses failure := by
  have hpeek : w.peek text = .error failure := error_of_map h
  exact refuses_of_require hcell (fun _ => refuses_of_peekAt) hpeek

/-- A write to a cell is refused for what the world does not have or does not take. -/
theorem refuses_of_ledger {l : Ledger} {request : WriteRequest} (htext : request.path = text)
    (h : (l.write w request).outcome = .error failure) : w.Refuses failure := by
  subst htext
  have hwrite : ∀ value, w.write request.path value = .error failure → w.Refuses failure :=
    fun _ => refuses_of_require hcell fun _ => refuses_of_writeAt
  unfold Ledger.write at h
  split at h
  · unfold Ledger.writeFirst at h
    split at h
    · rename_i hpeek
      cases h
      exact refuses_of_require hcell (fun _ => refuses_of_peekAt) hpeek
    · split at h
      · rename_i hrefused
        cases h
        exact hwrite _ hrefused
      · cases h
  · split at h
    · unfold Ledger.writeAgain at h
      split at h
      · rename_i hrefused
        cases h
        exact hwrite _ hrefused
      · cases h
    · unfold Ledger.writeConflicting at h
      dsimp only at h
      split at h
      · rename_i hrefused
        cases h
        unfold Ledger.apply at hrefused
        split at hrefused
        · exact refuses_of_require hcell (fun _ => refuses_of_unsetAt) hrefused
        · exact hwrite _ hrefused
      · cases h

end Texts

end World

end Harbormaster
