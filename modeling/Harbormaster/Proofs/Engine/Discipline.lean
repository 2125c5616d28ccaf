import Harbormaster.Proofs.Engine.Clock
import Harbormaster.Proofs.Engine.Commits
import Harbormaster.Proofs.World.Discipline

/-!
Worlds over whole runs. What is stable under the changes of a world is shown here to hold
of all the worlds that an engine comes to: those that its inputs leave, those that its
rules see and leave, action by action, and those that it commits. Nothing is asked of the
rules, of their policy or of the handlers of inputs, so a rule set need not have been
validated for it.
-/

namespace Harbormaster

namespace World.Stable

variable {P : World → Prop} (hP : Stable P)

include hP

theorem step {s s' : Stage} {known : String → Bool} {rule : Rule} {action : Action}
    (h : P s.world) (hstep : Stage.Step s known rule action s') : P s'.world := by
  cases hstep with
  | nothing => exact h
  | wrote _ hend => exact hP.of_end h hend
  | spawned => exact hP.events _ h

/-- Whatever actions are executed, and of which rules. -/
theorem after {s : Stage} (h : P s.world) (known : String → Bool)
    (steps : List (Rule × Action)) : P (s.after known steps).world :=
  Stage.after_preserves (P := fun s => P s.world) hP.step h steps

theorem applyInput {translator : Translator} {o : InputsOutcome} (h : P o.world) (input : Input) :
    P (Engine.applyInput translator o input).world := by
  unfold Engine.applyInput
  dsimp only
  cases hwritten : (translator.translate input o.world.stored).bind
      (Engine.performWrites · o.world.stored) with
  | error failure => exact h
  | ok world =>
    obtain ⟨writes, -, hperformed⟩ := ok_of_bind hwritten
    exact Engine.performWrites_preserves (fun _ _ => hP.write) (hP.stored h) hperformed

theorem applyInputs {w : World} (h : P w) (translator : Translator) (inputs : List Input) :
    P (Engine.applyInputs translator inputs w).world := by
  unfold Engine.applyInputs
  have hstart : P (⟨w, [], [], []⟩ : InputsOutcome).world := h
  generalize (⟨w, [], [], []⟩ : InputsOutcome) = o at hstart ⊢
  induction inputs generalizing o with
  | nil => exact hstart
  | cons input rest ih => exact ih _ (hP.applyInput hstart input)

end World.Stable

namespace Engine

structure Keeps (P : World → Prop) (e : Engine) : Prop where
  initial : P e.store.initial
  committed : ∀ s ∈ e.history, P s.state

section Stable

variable {P : World → Prop} {e : Engine}

theorem Keeps.state (h : e.Keeps P) : P e.state := by
  unfold Engine.state Store.current
  split
  · rename_i s hlast
    exact h.committed s (List.mem_of_getLast? hlast)
  · exact h.initial

variable (hP : World.Stable P)

include hP

theorem Keeps.inputs (h : e.Keeps P) : P e.runTick.2.world :=
  hP.applyInputs (hP.stored h.state) e.translator e.pending

/-- Whatever rules may do in a tick. -/
theorem Keeps.after_start (h : e.Keeps P) (known : String → Bool)
    (steps : List (Rule × Action)) : P (e.start.after known steps).world := by
  have hstart : P e.start.world := hP.events _ (h.inputs hP)
  exact hP.after hstart known steps

theorem Keeps.finalWorld (h : e.Keeps P) : P (Engine.finalWorld e.runTick.1) := by
  obtain ⟨steps, -, hstage⟩ := stage_runTick e
  have hend : P e.runTick.1.stage.world := hstage ▸ h.after_start hP _ steps
  exact hP.timeStep (.number (e.runTick.1.number + 1)) (hP.events e.runTick.1.stage.bus.listed hend)

theorem Keeps.tick (h : e.Keeps P) : e.tick.engine.Keeps P := by
  cases hs : e.tick.snapshot with
  | error failure =>
    obtain ⟨bus, hengine, -⟩ := engine_of_refusal hs
    rw [hengine]
    exact ⟨h.initial, h.committed⟩
  | ok s =>
    refine ⟨?_, ?_⟩
    · rw [(engine_of_commit hs).2]
      exact h.initial
    · intro s' hs'
      rw [history_of_commit hs] at hs'
      rcases List.mem_append.mp hs' with hformer | hlast
      · exact h.committed s' hformer
      · rw [List.mem_singleton.mp hlast, (snapshot_of_tick hs).2]
        exact hP.stored (h.finalWorld hP)

theorem Keeps.after (h : e.Keeps P) (calls : List Call) : (e.after calls).Keeps P := by
  induction calls generalizing e with
  | nil => exact h
  | cons c rest ih =>
    apply ih
    cases c with
    | submit | submitWrite | consume => exact ⟨h.initial, h.committed⟩
    | tick => exact h.tick hP

/-- An engine begins with what a document holds of its world. -/
theorem keeps_of_new {initial : World} {rules : RuleSet} {options : EngineOptions}
    {notice : Notice} (hnew : new initial rules options = .ok (e, notice)) (h : P initial) :
    e.Keeps P := by
  obtain ⟨-, -, -, hstore, -⟩ := of_new hnew
  constructor
  · rw [hstore]
    exact hP.stored h
  · intro s hs
    rw [history, hstore] at hs
    cases hs

end Stable

variable {initial : World} {rules : RuleSet} {options : EngineOptions} {e : Engine}
  {notice : Notice}

/-- An engine over a world with finite metrics and no list in its environment keeps the
world disciplined in whatever run: each tick commits a world with the agents that the
first one had, under their ids, with finite metrics and no list in its environment. No
input adds, drops or renames an agent before the tick is over, and neither does any action
of any rule, be it known to the engine or not. -/
theorem worlds_stay_disciplined (hnew : new initial rules options = .ok (e, notice))
    (hmetrics : initial.metrics.All fun v => v.isFinite = true)
    (henvironment : initial.environment.All fun v => v.list? = none) :
    (∃ start : Nat, initial.time.toInt? = some (start : Int) ∧
      ∀ calls, (∀ c ∈ calls, c.Nameable) → start + ticks calls ≤ 2 ^ 53 →
        (e.after calls).history.length = ticks calls) ∧
    ∀ calls,
      (∀ s ∈ (e.after calls).history, s.state.Disciplined initial.agents.keys) ∧
        (e.after calls).state.Disciplined initial.agents.keys ∧
        (e.after calls).runTick.2.world.Disciplined initial.agents.keys ∧
        ∀ known steps,
          ((e.after calls).start.after known steps).world.Disciplined initial.agents.keys := by
  obtain ⟨-, -, hfault, -⟩ := of_new hnew
  obtain ⟨start, hbegins, -, -⟩ := onTime_of_new hnew
  refine ⟨⟨start, hbegins, fun calls => history_length_of_new hnew hbegins⟩, ?_⟩
  intro calls
  have hstable := World.stable_disciplined initial.agents.keys
  have hkeeps : (e.after calls).Keeps (World.Disciplined initial.agents.keys) :=
    (keeps_of_new hstable hnew
      ⟨World.regular_of_fault? hfault hmetrics, rfl, henvironment⟩).after hstable calls
  exact ⟨hkeeps.committed, hkeeps.state, hkeeps.inputs hstable, hkeeps.after_start hstable⟩

def quiet : World :=
  { (default : World) with
    agents := .ofList [("tug", ⟨"tug", .ofList [("speed", 4)], ∅⟩)]
    environment := .ofList [("zone", "dock")]
    metrics := .ofList [("traffic", 1)] }

def setting (id target : String) (value : Value) : Rule :=
  { Stage.ranked id 1 with
    actions := [⟨.set, .ofList [("target", .text target), ("value", value)]⟩] }

def unruly : RuleSet :=
  ⟨[setting "haunting" "agents.ghost.speed" 3,
    setting "listing" "environment.zone" (.list ["dock", "sea"]),
    setting "measuring" "global_metrics.traffic" "heavy"], .standard⟩

/-- Two ticks of these rules and an emergency leave the harbour in order. -/
theorem quiet_stays_disciplined :
    ∃ e notice, new quiet unruly .standard = .ok (e, notice) ∧
      (e.after [.submit ⟨"emergency_stop", .missing⟩, .tick, .tick]).history.length = 2 ∧
      ∀ s ∈ (e.after [.submit ⟨"emergency_stop", .missing⟩, .tick, .tick]).history,
        s.state.Disciplined ["tug"] := by
  obtain ⟨e, notice, hnew⟩ : ∃ e notice, new quiet unruly .standard = .ok (e, notice) :=
    ⟨_, _, rfl⟩
  obtain ⟨⟨start, hbegins, hcommits⟩, hworlds⟩ :=
    worlds_stay_disciplined hnew (by decide +kernel) (by decide +kernel)
  obtain rfl : start = 0 := Int.ofNat_inj.mp (Option.some.inj (hbegins.symm.trans rfl))
  exact ⟨e, notice, hnew, hcommits _ (by decide +kernel) (by decide), (hworlds _).1⟩

end Engine

end Harbormaster
