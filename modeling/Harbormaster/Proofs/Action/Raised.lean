import Harbormaster.Proofs.Expression.Failures
import Harbormaster.Proofs.World.Refusals

/-!
Which kinds of failures conditions and actions raise: those of paths, of agents, of
types and of the action itself. A merge that is impossible gives way to priority, so it
never gets out of the ledger, and a chain that is too deep is no matter of the action
that asks for it but of the tick.
-/

namespace Harbormaster

def FailureKind.isLocal : FailureKind → Bool
  | unknownPath | unknownAgent | typeMismatch | invalidAction | typeError => true
  | unmergeableConflict | ruleChainOverflow | general => false

def RaisesLocal {α : Type} (x : Except Failure α) : Prop :=
  ∀ failure, x = .error failure → failure.kind.isLocal = true

section Combinators

variable {α β : Type} {x : Except Failure α} {failure : Failure}

theorem raisesLocal_ok (a : α) : RaisesLocal (.ok a : Except Failure α) := fun _ h => nomatch h

theorem raisesLocal_error (h : failure.kind.isLocal = true) :
    RaisesLocal (.error failure : Except Failure α) := by
  rintro _ ⟨⟩
  exact h

theorem RaisesLocal.bind {f : α → Except Failure β} (hx : RaisesLocal x)
    (hf : ∀ a, RaisesLocal (f a)) : RaisesLocal (x >>= f) := by
  intro failure h
  rcases error_of_bind h with herror | ⟨a, -, herror⟩
  · exact hx failure herror
  · exact hf a failure herror

theorem RaisesLocal.map {f : α → β} (hx : RaisesLocal x) : RaisesLocal (x.map f) :=
  fun failure h => hx failure (error_of_map h)

theorem RaisesLocal.ite {c : Prop} [Decidable c] {y : Except Failure α} (hx : RaisesLocal x)
    (hy : RaisesLocal y) : RaisesLocal (if c then x else y) := by
  split
  · exact hx
  · exact hy

end Combinators

namespace World

variable {w : World} {text : String} {path : Path} {value : Value}

theorem raisesLocal_require {α : Type} {f : Path → Except Failure α}
    (hf : ∀ path, RaisesLocal (f path)) : RaisesLocal ((Path.require text).bind f) := by
  intro failure h
  rcases error_of_require h with ⟨-, rfl⟩ | ⟨path, -, herror⟩
  · rfl
  · exact hf path failure herror

theorem raisesLocal_readAt : RaisesLocal (w.readAt path) := by
  intro failure h
  rcases gap_of_readAt h with ⟨fault, rfl, -⟩ | ⟨fault, rfl⟩ <;> rfl

theorem raisesLocal_read : RaisesLocal (w.read text) :=
  raisesLocal_require fun _ => raisesLocal_readAt

theorem Refuses.isLocal {failure : Failure} (h : w.Refuses failure) :
    failure.kind.isLocal = true := by
  cases h with
  | noAgent =>
    unfold World.noAgent
    split <;> rfl
  | mismatch => rfl

/-- A cell refuses for what the world has; an event is not written at all. -/
theorem raisesLocal_of_refuses {α : Type} {f : Path → Except Failure α}
    (hcell : ∀ {path failure}, path.isCell = true → f path = .error failure → w.Refuses failure)
    (hevent : ∀ eventType key, f (.event eventType key) =
      .error (.unknownPath (Path.event eventType key).render (some .readOnly))) :
    RaisesLocal ((Path.require text).bind f) := by
  apply raisesLocal_require
  intro path failure h
  cases path with
  | event eventType key =>
    rw [hevent] at h
    cases h
    rfl
  | agentField | environmentField | metric => exact (hcell rfl h).isLocal

theorem raisesLocal_peek : RaisesLocal (w.peek text) :=
  raisesLocal_of_refuses refuses_of_peekAt fun _ _ => rfl

theorem raisesLocal_write : RaisesLocal (w.write text value) :=
  raisesLocal_of_refuses refuses_of_writeAt fun _ _ => rfl

theorem raisesLocal_unset : RaisesLocal (w.unset text) :=
  raisesLocal_of_refuses refuses_of_unsetAt fun _ _ => rfl

theorem raisesLocal_current : RaisesLocal (w.current text) := raisesLocal_peek.map

theorem raisesLocal_evaluate {source : String} : RaisesLocal (Expression.evaluate source w) := by
  intro failure h
  cases Expression.fails_evaluate h with
  | unread hread => exact raisesLocal_read failure hread
  | unexpectedCharacter | trailingInput | divisionByZero | unexpectedEnd | missingParenthesis
  | unexpectedToken | emptyExpression | notNumeric => rfl

theorem raisesLocal_resolve : RaisesLocal (w.resolve value) := by
  unfold resolve
  split
  · split
    · exact raisesLocal_evaluate.map
    · exact raisesLocal_read.ite (raisesLocal_ok _)
  · exact raisesLocal_ok _

end World

section Comparison

theorem raisesLocal_comparand {operator : Operator} {side : Side} {v : Value} :
    RaisesLocal (comparand operator side v) := by
  intro failure h
  unfold comparand at h
  dsimp only at h
  split at h
  · cases h
  · split at h
    · cases h
      rfl
    · split at h
      · split at h
        · cases h
        · cases h
          rfl
      · cases h
        rfl
  · cases h
    rfl

theorem raisesLocal_compareOrdered {operator : Operator} {test : Number → Number → Bool}
    {left right : Value} : RaisesLocal (compareOrdered operator test left right) := by
  unfold compareOrdered
  split
  · rename_i failure hleft
    exact raisesLocal_error (raisesLocal_comparand failure hleft)
  · split
    · rename_i failure hright
      exact raisesLocal_error (raisesLocal_comparand failure hright)
    · exact raisesLocal_ok _

theorem raisesLocal_compareValues {left right : Value} {operator : Operator} :
    RaisesLocal (compareValues left operator right) := by
  cases operator with
  | less | greater | lessEqual | greaterEqual => exact raisesLocal_compareOrdered
  | equal | unequal => exact raisesLocal_ok _
  | isIn =>
    cases right with
    | list => exact raisesLocal_ok _
    | missing | absent | boolean | number | text | record | native | fallback =>
      exact raisesLocal_error rfl

theorem raisesLocal_compareWithItself {v : Value} {operator : Operator} :
    RaisesLocal (compareWithItself v operator) := by
  unfold compareWithItself
  split
  · exact raisesLocal_ok _
  · exact raisesLocal_ok _
  · exact raisesLocal_compareValues

theorem Condition.raisesLocal_compare {c : Condition} {left right : Value} :
    RaisesLocal (c.compare left right) := by
  unfold compare
  split
  · exact raisesLocal_ok _
  · exact raisesLocal_compareWithItself.map.ite raisesLocal_compareValues.map

end Comparison

namespace Action

variable {a : Action} {name : String} {what : Quantity} {v : Value}

theorem raisesLocal_require : RaisesLocal (a.require name) := by
  unfold require
  dsimp only
  split
  · exact raisesLocal_error rfl
  · exact raisesLocal_error rfl
  · exact raisesLocal_error rfl
  · exact raisesLocal_ok _

theorem raisesLocal_requireText : RaisesLocal (a.requireText name) := raisesLocal_require.map

theorem raisesLocal_requireValue : RaisesLocal a.requireValue := by
  unfold requireValue
  split
  · exact raisesLocal_error rfl
  · exact raisesLocal_error rfl
  · exact raisesLocal_ok _

theorem raisesLocal_requireNumber : RaisesLocal (requireNumber what v) := by
  unfold requireNumber
  split
  · exact (raisesLocal_error rfl).ite (raisesLocal_ok _)
  · exact raisesLocal_error rfl

end Action

namespace Deed

open Harbormaster.Action Harbormaster.World

variable {a : Action} {w : World}

theorem raisesLocal_payload {done : Record Value} {entries : List (String × Value)} :
    RaisesLocal (payload w done entries) := by
  induction entries generalizing done with
  | nil => exact raisesLocal_ok _
  | cons entry rest ih =>
    unfold payload
    split
    · rename_i failure hresolve
      exact raisesLocal_error (raisesLocal_resolve failure hresolve)
    · exact ih
    · exact ih

theorem raisesLocal_levelOf : RaisesLocal (levelOf a) := by
  unfold levelOf
  split
  · exact raisesLocal_ok _
  · exact raisesLocal_ok _
  · split
    · exact raisesLocal_ok _
    · exact raisesLocal_error rfl

theorem raisesLocal_ofAction {known : String → Bool} {rule : Rule} :
    RaisesLocal (ofAction known rule a w) := by
  unfold ofAction
  cases a.kind with
  | set =>
    refine raisesLocal_requireText.bind fun target => raisesLocal_requireValue.bind fun raw =>
      raisesLocal_current.bind fun before => raisesLocal_resolve.bind fun value => ?_
    exact (raisesLocal_error rfl).ite (raisesLocal_ok _)
  | add =>
    refine raisesLocal_requireText.bind fun target => raisesLocal_requireValue.bind fun raw =>
      raisesLocal_current.bind fun before => raisesLocal_resolve.bind fun resolved =>
      raisesLocal_requireNumber.bind fun addend => ?_
    exact ((raisesLocal_ok _).bind fun _ => raisesLocal_ok _).ite
      (raisesLocal_requireNumber.bind fun _ => raisesLocal_ok _)
  | clamp =>
    refine raisesLocal_requireText.bind fun target =>
      raisesLocal_require.bind fun lowRaw => raisesLocal_resolve.bind fun lowValue =>
      raisesLocal_requireNumber.bind fun low => raisesLocal_require.bind fun highRaw =>
      raisesLocal_resolve.bind fun highValue => raisesLocal_requireNumber.bind fun high => ?_
    exact (raisesLocal_error rfl).ite (raisesLocal_current.bind fun before =>
      raisesLocal_requireNumber.bind fun held => raisesLocal_ok _)
  | recommend =>
    exact raisesLocal_requireText.bind fun target => raisesLocal_requireValue.bind fun raw =>
      raisesLocal_current.bind fun current => raisesLocal_resolve.bind fun value =>
      raisesLocal_ok _
  | triggerRule =>
    refine raisesLocal_require.bind fun rule => ?_
    split
    · exact raisesLocal_ok _
    · exact raisesLocal_error rfl
  | spawnEvent =>
    exact raisesLocal_require.bind fun eventType => raisesLocal_payload.bind fun payload =>
      raisesLocal_ok _
  | log =>
    exact raisesLocal_require.bind fun message => raisesLocal_levelOf.bind fun level =>
      (raisesLocal_read.bind fun value => raisesLocal_ok _).ite (raisesLocal_ok _)

end Deed

/-- A conflict raises nothing but what the cell raises that refuses its outcome. -/
theorem Ledger.raisesLocal_write {l : Ledger} {w : World} {request : WriteRequest} :
    RaisesLocal (l.write w request).outcome := by
  unfold write
  split
  · unfold writeFirst
    split
    · rename_i failure hpeek
      exact raisesLocal_error (World.raisesLocal_peek failure hpeek)
    · split
      · rename_i failure hwrite
        exact raisesLocal_error (World.raisesLocal_write failure hwrite)
      · exact raisesLocal_ok _
  · split
    · unfold writeAgain
      split
      · rename_i failure hwrite
        exact raisesLocal_error (World.raisesLocal_write failure hwrite)
      · exact raisesLocal_ok _
    · unfold writeConflicting
      dsimp only
      split
      · rename_i failure happly
        unfold apply at happly
        split at happly
        · exact raisesLocal_error (World.raisesLocal_unset failure happly)
        · exact raisesLocal_error (World.raisesLocal_write failure happly)
      · exact raisesLocal_ok _

/-- An action fails for what is wrong with it or with the world it works on. -/
theorem Stage.raisesLocal_execute {s : Stage} {known : String → Bool} {rule : Rule}
    {action : Action} : RaisesLocal (s.execute known rule action).result := by
  unfold execute
  split
  · rename_i failure hdeed
    exact raisesLocal_error (Deed.raisesLocal_ofAction failure hdeed)
  · rename_i deed _
    cases deed with
    | write => exact Ledger.raisesLocal_write.map
    | recommend | trigger | spawn | log => exact raisesLocal_ok _

end Harbormaster
