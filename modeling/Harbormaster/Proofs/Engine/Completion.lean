import Harbormaster.Proofs.Engine.Clock
import Harbormaster.Proofs.Engine.Commits
import Harbormaster.Proofs.Input.Trials
import Harbormaster.Proofs.Tick.Failures

/-!
Ticks come to their end. Inputs, conditions and actions may fail in any way: each
failure is reported, with the inputs that were rejected or in the explanation of the
rule that raised it, and the tick is committed under the next number. Only an input that
reports have no name for keeps a tick from it: then nothing is tried, nothing is committed,
and all inputs that waited are lost. The number has a limit as well: from `2 ^ 53` on a tick
may be refused by the history.
-/

namespace Harbormaster.Engine

variable {e : Engine} {initial : World} {rules : RuleSet} {options : EngineOptions}
  {notice : Notice}

/-- Each failure that is raised by an input of a tick is reported, in the order of the
inputs, and so is each input that was accepted. -/
def ReportsInputs (e : Engine) (s : Snapshot) : Prop :=
  ∃ trials, Tried e.translator e.state.stored trials e.runTick.2.world ∧
    trials.map (·.input) = e.pending ∧
    s.record.inputsApplied = (Trial.accepted trials).map Input.describe ∧
    s.record.inputFailures = trials.filterMap Trial.rejection?

/-- Every rule of the engine has one turn, and its explanation records the failures that
were raised in this turn and no others. -/
def ReportsRules (e : Engine) (s : Snapshot) : Prop :=
  ∃ turns, Course.Turns e.tickRules ⟨e.start, none⟩ turns
      ⟨e.runTick.1.stage, s.record.chainOverflow⟩ ∧
    (turns.map (·.1)).Perm e.rules ∧
    s.record.explanations.map (fun x => (x.ruleId, x.failures)) =
      turns.map fun turn => (turn.1.id, turn.2.map Failure.recorded)

theorem reportsInputs {s : Snapshot} (hs : e.tick.snapshot = .ok s) : e.ReportsInputs s := by
  obtain ⟨trials, w, htried, hinputs⟩ := exists_tried e.translator e.state.stored e.pending
  obtain ⟨hworld, happlied, hfailures⟩ := htried.applyInputs
  rw [hinputs] at hworld happlied hfailures
  refine ⟨trials, ?_, hinputs, ?_, ?_⟩
  · change Tried _ _ _ (applyInputs e.translator e.pending e.state.stored).world
    rwa [hworld]
  · rw [(snapshot_of_tick hs).1]
    exact happlied
  · rw [(snapshot_of_tick hs).1]
    exact hfailures

theorem reportsRules {s : Snapshot} (hdistinct : (e.rules.map (·.id)).Nodup)
    (hs : e.tick.snapshot = .ok s) : e.ReportsRules s := by
  obtain ⟨turns, hturns, hfailures, hperm⟩ := Tick.turns_drain (r := e.tickRules)
    (t := e.beginTick e.state.stored.time e.runTick.2.world) hdistinct rfl
  refine ⟨turns, ?_, hperm, ?_⟩
  · rw [(snapshot_of_tick hs).1]
    exact hturns
  · have hrecorded := congrArg (List.map fun turn : Rule × List RecordedFailure =>
      (turn.1.id, turn.2)) hfailures
    rw [(snapshot_of_tick hs).1]
    simpa [Tick.failures, Course.recorded, runTick, reportOf, TickReport.stored, Explanation.stored,
      Draft.build, Function.comp_def] using hrecorded

theorem state_of_getLast? {s : Snapshot} (h : e.history.getLast? = some s) : e.state = s.state := by
  unfold state Store.current
  rw [show e.store.commits.getLast? = some s from h]

structure Completed (e : Engine) (number : Nat) (s : Snapshot) : Prop where
  snapshot : e.tick.snapshot = .ok s
  tick : s.tick = .ofNat number
  timeStep : s.state.timeStep = .number (.ofNat (number + 1))
  history : e.tick.engine.history = e.history ++ [s]
  state : e.tick.engine.state = s.state
  inputs : e.ReportsInputs s
  rules : e.ReportsRules s

/-- A tick that is given up: nothing is committed, and no input waits for another one. -/
structure Abandoned (e : Engine) : Prop where
  snapshot : e.tick.snapshot = .error (.access .noText)
  engine : e.tick.engine = { e with pending := [] }

theorem abandoned_of_not_nameable (h : ¬e.Nameable) : e.Abandoned :=
  ⟨by rw [tick_of_not_nameable h]; rfl, by rw [tick_of_not_nameable h]; rfl⟩

/-- An input of which a parameter is a record that holds something in place of the function
that makes its text. -/
def namelessInput : Input :=
  ⟨"x", .record (.ofList [("a", .record (.ofList [("toString", "none")]))])⟩

end Harbormaster.Engine
