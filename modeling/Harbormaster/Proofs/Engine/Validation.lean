import Harbormaster.Proofs.Action.Failures
import Harbormaster.Proofs.Engine.Commits
import Harbormaster.Proofs.Rule.Reading
import Harbormaster.Proofs.Tick.Stops

/-!
What the check of a rule set is worth to an engine. Rules that were accepted can be
loaded into any engine, and in no run of it does an action of theirs fail for a reason
that could have been seen in the document. What is in the worlds of the run is left
open, so failures that lie there remain possible.
-/

namespace Harbormaster

/-- The failures of an action that are left once its rule has been accepted: those that
lie in the world in which it is executed, and chains that get too deep. -/
structure Failure.Left (failure : Failure) (r : TickRules) (rule : Rule) (action : Action)
    (w : World) : Prop where
  notStructural : ¬ failure.Structural action
  cause : failure.OfState action w ∨ ∃ target overflow,
    Course.TooDeep r.maxChainDepth rule target overflow ∧ failure = Course.raisedBy overflow

/-- An action that has passed does not end the turn of its rule but for what is left. -/
theorem Stage.left_of_stops {s : Stage} {r : TickRules} {rule : Rule} {action : Action}
    {failure : Failure} {ruleIds : List String} (hready : action.Ready ruleIds)
    (hsome : "" ∉ ruleIds) (hknown : ∀ id ∈ ruleIds, r.known id = true)
    (h : s.Stops r rule action failure) : failure.Left r rule action s.world := by
  cases h with
  | failed hresult =>
    have hstate := ofState_of_failed hready hsome hknown hresult
    exact ⟨hstate.not_structural hready, .inl hstate⟩
  | overflowed _ _ hdeep =>
    refine ⟨?_, .inr ⟨_, _, hdeep, rfl⟩⟩
    intro hstructural
    cases hstructural

namespace Engine

variable {e : Engine} {initial : World} {rules : RuleSet} {options : EngineOptions}
  {notice : Notice}

/-- Only two rules of one id are found to be such. -/
theorem duplicateId?_of_new {id : String}
    (h : new initial rules options = .error (.engine (.duplicateRule id))) :
    duplicateId? [] rules.rules = some id := by
  unfold new at h
  rcases error_of_bind h with hdepth | ⟨depth, -, h⟩
  · unfold chainDepth at hdepth
    split at hdepth
    · cases hdepth
    · cases hdepth
    · split at hdepth <;> cases hdepth
    · cases hdepth
  split at h
  · rename_i found hfound
    cases h
    exact hfound
  · rcases error_of_bind h with hstore | ⟨_, -, h⟩
    · unfold Store.ofWorld at hstore
      split at hstore <;> cases hstore
    · cases h

/-- A failed action as a report tells it: where it ended the turn of its rule, and by one
of the failures that are left. -/
def Explains (e : Engine) (x : Explanation) (a : Application) : Prop :=
  ∃ rule ∈ e.rules, ∃ action ∈ rule.actions, ∃ s failure, x.ruleId = rule.id ∧
    e.start.Reaches e.tickRules e.rules s ∧ s.Stops e.tickRules rule action failure ∧
    failure.Left e.tickRules rule action s.world ∧
    a = (Application.failed action failure .absent).stored

theorem explains_of_tick {s : Snapshot} {x : Explanation} {a : Application}
    (hdistinct : (e.rules.map (·.id)).Nodup)
    (hleft : ∀ rule ∈ e.rules, ∀ action ∈ rule.actions, ∀ (s : Stage) (failure : Failure),
      s.Stops e.tickRules rule action failure → failure.Left e.tickRules rule action s.world)
    (hs : e.tick.snapshot = .ok s) (hx : x ∈ s.record.explanations)
    (ha : a ∈ x.actionsApplied) (hfailed : a.success = false) : e.Explains x a := by
  have haccounted := Tick.accounted_drain (r := e.tickRules)
    (t := e.beginTick e.state.stored.time e.runTick.2.world) hdistinct rfl
  rw [(snapshot_of_tick hs).1] at hx
  obtain ⟨built, hbuilt, rfl⟩ := List.mem_map.mp hx
  obtain ⟨d, hd, rfl⟩ := List.mem_map.mp hbuilt
  obtain ⟨done, hdone, rfl⟩ := List.mem_map.mp ha
  obtain ⟨action, haction, stage, failure, hreached, hstops, rfl⟩ :=
    haccounted.stopped d hd done hdone hfailed
  have hrule : d.rule ∈ e.rules := haccounted.drafts d hd
  exact ⟨d.rule, hrule, action, haction, stage, failure, rfl, hreached, hstops,
    hleft d.rule hrule action haction stage failure hstops, rfl⟩

/-- The rules of an accepted document never keep an engine from being set up. In every run
of such an engine their actions fail, on whatever stage, for none but the failures that
are left, and each failed action of a committed tick is one of these. -/
theorem accepted_rules_fail_by_state {raw : Value} {source : String}
    (hrules : RuleSet.ofDocument raw source = .ok rules) :
    (∀ initial options id, new initial rules options ≠ .error (.engine (.duplicateRule id))) ∧
    (∀ initial options depth, initial.fault? = none →
      chainDepth options.maxChainDepth = .ok depth →
        ∃ e notice, new initial rules options = .ok (e, notice)) ∧
    ∀ initial options e notice, new initial rules options = .ok (e, notice) → ∀ calls,
      (∀ rule ∈ rules.rules, ∀ action ∈ rule.actions, ∀ (s : Stage) (failure : Failure),
        s.Stops (e.after calls).tickRules rule action failure →
          failure.Left (e.after calls).tickRules rule action s.world) ∧
      ∀ s, (e.after calls).tick.snapshot = .ok s → ∀ x ∈ s.record.explanations,
        ∀ a ∈ x.actionsApplied, a.success = false → (e.after calls).Explains x a := by
  obtain ⟨hdistinct, hpasses⟩ := RuleSet.passes_of_document hrules
  refine ⟨?_, fun _ _ _ hworld hdepth => new_succeeds hdepth hdistinct hworld, ?_⟩
  · intro initial options id hnew
    have hnone : duplicateId? [] rules.rules = none := by
      rw [duplicateId?_eq_none_iff]
      exact ⟨hdistinct, fun _ _ => List.not_mem_nil⟩
    rw [duplicateId?_of_new hnew] at hnone
    cases hnone
  · intro initial options e notice hnew calls
    have hperm := perm_rules_after hnew calls
    have hnonempty : "" ∉ rules.rules.map (·.id) := by
      intro hempty
      obtain ⟨rule, hrule, hid⟩ := List.mem_map.mp hempty
      exact (hpasses rule hrule).1 hid
    have hknown : ∀ id ∈ rules.rules.map (·.id), (e.after calls).tickRules.known id = true := by
      intro id hid
      obtain ⟨rule, hrule, hid⟩ := List.mem_map.mp hid
      refine List.any_eq_true.mpr ⟨rule, ?_, decide_eq_true hid⟩
      exact hperm.mem_iff.mpr hrule
    have hleft : ∀ rule ∈ rules.rules, ∀ action ∈ rule.actions, ∀ (s : Stage)
        (failure : Failure), s.Stops (e.after calls).tickRules rule action failure →
          failure.Left (e.after calls).tickRules rule action s.world := by
      intro rule hrule action haction s failure hstops
      exact Stage.left_of_stops ((hpasses rule hrule).2 action haction).ready hnonempty hknown
        hstops
    refine ⟨hleft, ?_⟩
    intro s hs x hx a ha hfailed
    refine explains_of_tick (ids_after hnew calls) ?_ hs hx ha hfailed
    exact fun rule hrule => hleft rule (hperm.mem_iff.mp hrule)

/-- Where there is no tug to take the fuel, the action fails by no fault of its rule. -/
theorem missing_tug_fails_by_state :
    RuleSet.ofDocument (.record (refuelDocument 1)) "rules" = .ok ⟨[refuel 1], .standard⟩ ∧
      ∃ e notice, new default ⟨[refuel 1], .standard⟩ .standard = .ok (e, notice) ∧
        e.start.Stops e.tickRules (refuel 1) (Document.keptAction .add (refuelAction 1))
          (.unknownAgent "tug") ∧
        Failure.Left (.unknownAgent "tug") e.tickRules (refuel 1)
          (Document.keptAction .add (refuelAction 1)) e.start.world := by
  obtain ⟨-, hloads, hruns⟩ := accepted_rules_fail_by_state (refuelDocument_accepted 1)
  obtain ⟨e, notice, hnew⟩ := hloads default .standard _ rfl rfl
  obtain ⟨-, -, hpending⟩ := given_of_new hnew
  have htug : e.start.world.agents.get? "tug" = none := by
    change (applyInputs e.translator e.pending e.state.stored).world.agents.get? "tug" = none
    rw [hpending, state_of_new hnew]
    rfl
  have hpath : Path.parse? "agents.tug.fuel" = some (.agentField "tug" "fuel") := by
    decide +kernel
  have hcurrent : e.start.world.current "agents.tug.fuel" = .error (.unknownAgent "tug") := by
    simp only [World.current, World.peek, Path.require, hpath, Except.bind, World.peekAt, htug]
    rfl
  have hstops : e.start.Stops e.tickRules (refuel 1)
      (Document.keptAction .add (refuelAction 1)) (.unknownAgent "tug") := by
    refine .failed ?_
    have htarget : (Document.keptAction .add (refuelAction 1)).requireText "target" =
        .ok "agents.tug.fuel" := rfl
    have hvalue : (Document.keptAction .add (refuelAction 1)).requireValue = .ok 1 := rfl
    have hkind : (Document.keptAction .add (refuelAction 1)).kind = .add := rfl
    simp only [Stage.execute, Deed.ofAction, hkind, Deed.ofAdd, htarget, hvalue, hcurrent, bind,
      Except.bind]
  refine ⟨refuelDocument_accepted 1, e, notice, hnew, hstops, ?_⟩
  obtain ⟨hleft, -⟩ := hruns _ _ _ _ hnew []
  exact hleft (refuel 1) List.mem_cons_self _ List.mem_cons_self _ _ hstops

end Engine

end Harbormaster
