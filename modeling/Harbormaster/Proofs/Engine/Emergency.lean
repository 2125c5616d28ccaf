import Harbormaster.Proofs.Engine.Completion
import Harbormaster.Proofs.Engine.Discipline
import Harbormaster.Proofs.Input.Emergency

/-!
Emergency stops in use. A history takes worlds with agents of any names, and the agents
that there are in the beginning are there in every tick; so whether an emergency stop
works is settled by the names in the world that an engine is set up with, whatever its
rules do and whatever inputs came before.
-/

namespace Harbormaster.Engine

variable {e : Engine} {initial : World} {rules : RuleSet} {options : EngineOptions}
  {notice : Notice} {former : List Input} {stop : Input}

/-- The world of the next tick when some inputs have been applied to it. -/
def withInputs (e : Engine) (inputs : List Input) : World :=
  (applyInputs e.translator inputs e.state.stored).world

/-- An input of the next tick stops every agent, after those that were handed in before. The
tick has to come to it, so reports have names for all of them. -/
structure StopsAgents (e : Engine) (former : List Input) (stop : Input) : Prop where
  reached : ∀ input ∈ former ++ [stop], input.isNameable = true
  stopped : Stopped (applyInputs e.translator former e.state.stored)
    (applyInputs e.translator (former ++ [stop]) e.state.stored) stop

theorem stopsAgents_iff
    (htype : stop.type.text?.bind e.translator.handler? = some Handler.emergencyStop) :
    e.StopsAgents former stop ↔
      (∀ input ∈ former ++ [stop], input.isNameable = true) ∧
        (∀ name ∈ e.state.agents.keys, Path.isWord name.toList = true) ∧
        (e.withInputs former).stored.withoutSpeeds = (e.withInputs former).withoutSpeeds := by
  have hstable := World.stable_keys e.state.agents.keys
  have hkeys := hstable.applyInputs (hstable.stored rfl) e.translator former
  have hstopped := stopped_iff (o := applyInputs e.translator former e.state.stored) htype
  rw [← applyInputs_concat, hkeys] at hstopped
  exact ⟨fun h => ⟨h.reached, hstopped.mp h.stopped⟩, fun h => ⟨h.1, hstopped.mpr h.2⟩⟩

/-- The parameters of every input that waits are kept. -/
theorem kept_pending (h : ∀ input ∈ e.pending, input.parameters.Kept) (calls : List Call) :
    ∀ input ∈ (e.after calls).pending, input.parameters.Kept := by
  induction calls generalizing e with
  | nil => exact h
  | cons c rest ih =>
    apply ih
    rw [pending_call]
    have hhanded : ∀ handed : Input, ∀ input ∈ e.pending ++ [handed.stored],
        input.parameters.Kept := by
      intro handed input hinput
      rcases List.mem_append.mp hinput with hwaits | hnew
      · exact h input hwaits
      · exact List.mem_singleton.mp hnew ▸ handed.kept_stored
    cases c with
    | submit input => exact hhanded input
    | submitWrite path value => exact hhanded (.write path value)
    | consume eventType =>
      exact fun input hinput => h input ((List.append_nil e.pending).symm ▸ hinput)
    | tick => exact fun input hinput => (List.not_mem_nil hinput).elim

/-- A harbour with a second tug, the name of which is no word. -/
def crowded : World :=
  { quiet with
    agents := .ofList
      [("tug", ⟨"tug", .ofList [("speed", 4)], ∅⟩),
        ("tug boat", ⟨"tug boat", .ofList [("speed", 2)], ∅⟩)] }

end Harbormaster.Engine
