import Harbormaster.Proofs.Engine.Discipline
import Harbormaster.Proofs.Input.Filled

/-!
Runs in which all numbers stay finite. Nothing is ever put down as absent then: whatever is
left in the cells that a tick commits is something that they may hold, and every event is as
a document keeps it. So a history can begin with any world that such a run has committed.
Where a number that is not finite is overwritten before the next copy, it does no harm and
is let through.
-/

namespace Harbormaster

/-- A world of which nothing keeps a history from beginning with it. -/
theorem World.Regular.fault?_eq_none {w : World} (h : w.Regular)
    (hfields : w.agents.All fun a => a.fields.Filled) {n : Nat} (hlimit : n ≤ Number.exactLimit)
    (htime : w.timeStep = .number (.ofNat n)) : w.fault? = none := by
  refine Option.or_eq_none_iff.mpr ⟨?_, Option.or_eq_none_iff.mpr ⟨?_, ?_⟩⟩
  · rw [List.findSome?_eq_none_iff]
    intro a ha
    unfold agentFault?
    rw [if_pos (Value.text?_eq_some_iff.mpr (h.ids a ha)), fieldFault?, List.findSome?_eq_none_iff]
    exact fun field hfield => if_pos (hfields a ha field hfield)
  · rw [List.findSome?_eq_none_iff]
    intro metric hmetric
    obtain ⟨n, hn, -⟩ := h.metrics metric hmetric
    rw [hn]
    rfl
  · have hwhole : w.timeStep.number?.bind Number.toInt? = some (n : Int) := by
      rw [htime, Value.number?, Option.bind_some, Number.toInt?_ofNat hlimit]
    unfold timeFault?
    rw [hwhole]
    exact if_neg (Int.not_lt.mpr (Int.natCast_nonneg n))

/-- Finite metrics of a world that a history may begin with. -/
theorem World.Finite.metrics_of_fault? {w : World} (h : w.Finite) (hfault : w.fault? = none) :
    w.metrics.All fun v => v.isFinite = true := by
  obtain ⟨-, hrest⟩ := Option.or_eq_none_iff.mp hfault
  have hnumbers := (Option.or_eq_none_iff.mp hrest).1
  rw [List.findSome?_eq_none_iff] at hnumbers
  rintro ⟨name, v⟩ hentry
  have hnone := hnumbers _ hentry
  cases v with
  | number n => exact (h.metrics _ hentry rfl).1
  | missing | absent | boolean | text | list | record | native | fallback => cases hnone

namespace Engine

/-- The numbers of a call are finite: those that are handed in, and in a tick those that
the world holds wherever it is copied, which is before each input and at the end. -/
structure KeepsFinite (e : Engine) (c : Call) : Prop where
  submitted : ∀ input ∈ c.input?, input.parameters.All fun v => v.isFinite = true
  applied : c = .tick → ∀ former, former <+: e.pending →
    (applyInputs e.translator former e.state.stored).world.Finite
  ended : c = .tick → (finalWorld e.runTick.1).Finite

/-- All numbers of a run stay finite. -/
def StaysFinite : Engine → List Call → Prop
  | _, [] => True
  | e, c :: rest => e.KeepsFinite c ∧ StaysFinite (e.call c) rest

theorem staysFinite_append (e : Engine) (former later : List Call) :
    e.StaysFinite (former ++ later) ↔
      e.StaysFinite former ∧ (e.after former).StaysFinite later := by
  induction former generalizing e with
  | nil => exact (and_iff_right trivial).symm
  | cons c rest ih =>
    change e.KeepsFinite c ∧ (e.call c).StaysFinite (rest ++ later) ↔ _
    rw [ih, ← and_assoc]
    rfl

/-- An engine of well-typed rules that has seen nothing but scalars. -/
structure Filled (e : Engine) : Prop where
  rules : ∀ rule ∈ e.rules, ∀ action ∈ rule.actions, action.Typed
  translator : e.translator.Filled
  state : e.state.MadeOf Value.isScalar
  kept : e.state.stored = e.state
  events : e.bus.events.All fun event => event.members.MadeOf Value.isScalar
  pending : ∀ input ∈ e.pending, input.parameters.Filled

variable {e : Engine}

namespace Filled

theorem runTick (h : e.Filled) (hfinite : e.KeepsFinite .tick) :
    e.runTick.1.stage.MadeOf Value.isScalar := by
  have hinputs : e.runTick.2.world.MadeOf Value.isScalar :=
    scalars_applyInputs h.translator h.pending (h.kept.symm ▸ h.state) (hfinite.applied rfl)
  exact madeOf_runTick Value.items_isScalar h.rules hinputs h.events

theorem tick (h : e.Filled) (hfinite : e.KeepsFinite .tick) : e.tick.engine.Filled := by
  have hstage := h.runTick hfinite
  obtain ⟨store, bus, hengine, hcurrent, hbus⟩ := engine_of_tick e
  have hstate : store.current.MadeOf Value.isScalar ∧ store.current.stored = store.current := by
    rcases hcurrent with hstays | hcommits
    · rw [hstays]
      exact ⟨h.state, h.kept⟩
    · rw [hcommits]
      exact ⟨(madeOf_finalWorld hstage).stored_of_finite (hfinite.ended rfl), World.stored_stored _⟩
  have hevents : bus.events.All fun event => event.members.MadeOf Value.isScalar := by
    rcases hbus with rfl | rfl
    · exact hstage.bus.events
    · exact h.events
  rw [hengine]
  exact ⟨h.rules, h.translator, hstate.1, hstate.2, hevents,
    fun input hinput => (List.not_mem_nil hinput).elim⟩

theorem submit (h : e.Filled) {input : Input} (hinput : input.Typed)
    (hfinite : input.parameters.All fun v => v.isFinite = true) : (e.submit input).Filled := by
  have hsolid : input.Solid := fun entry hentry =>
    Value.isSolid_of_isStorable (hinput.values entry hentry) (hfinite entry hentry)
  refine ⟨h.rules, h.translator, h.state, h.kept, h.events, ?_⟩
  intro other hother
  rcases List.mem_append.mp hother with hformer | hlast
  · exact h.pending other hformer
  · rw [List.mem_singleton.mp hlast, hinput.stored_eq_iff.mpr hsolid]
    exact hinput.values

theorem call (h : e.Filled) {c : Call} (hc : c.Typed) (hfinite : e.KeepsFinite c) :
    (e.call c).Filled := by
  cases c with
  | submit | submitWrite => exact h.submit (hc _ rfl) (hfinite.submitted _ rfl)
  | consume eventType =>
    exact ⟨h.rules, h.translator, h.state, h.kept, h.events.erase eventType, h.pending⟩
  | tick => exact h.tick hfinite

theorem after (h : e.Filled) {calls : List Call} (hcalls : ∀ c ∈ calls, c.Typed)
    (hfinite : e.StaysFinite calls) : (e.after calls).Filled := by
  induction calls generalizing e with
  | nil => exact h
  | cons c rest ih =>
    obtain ⟨hfirst, hrest⟩ := hfinite
    exact ih (h.call (hcalls c List.mem_cons_self) hfirst)
      (fun later hlater => hcalls later (List.mem_cons_of_mem _ hlater)) hrest

end Filled

theorem filled_of_new {initial : World} {rules : RuleSet} {options : EngineOptions}
    {notice : Notice} (h : new initial rules options = .ok (e, notice)) (hrules : rules.Typed)
    (hfinite : initial.Finite) (henvironment : initial.environment.Filled)
    (hevents : initial.events.All Event.Typed) (htranslator : options.translator.Filled) :
    e.Filled := by
  obtain ⟨-, -, hfault, -, -⟩ := of_new h
  obtain ⟨hgiven, hbus, hpending⟩ := given_of_new h
  have hstate := state_of_new h
  have hmade : initial.MadeOf Value.isScalar :=
    World.madeOf_of_fault? Value.items_isScalar hfault henvironment hevents
  have hstored := hmade.stored_of_finite hfinite
  refine ⟨?_, ?_, ?_, ?_, ?_, ?_⟩
  · exact fun rule hrule => hrules rule ((perm_rules_after h []).mem_iff.mp hrule)
  · rw [hgiven]
    exact htranslator
  · rw [hstate]
    exact hstored
  · rw [hstate]
    exact World.stored_stored _
  · rw [hbus]
    exact hstored.events
  · rw [hpending]
    exact fun input hinput => (List.not_mem_nil hinput).elim

end Engine

end Harbormaster
