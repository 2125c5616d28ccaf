import Harbormaster.Proofs.Engine.Completion

/-!
Rejected inputs. Of an input that is rejected a tick keeps its entry in the report and
nothing else: had it not been handed in, the tick would have come to the same end.
This is so on whatever engine and with whatever handlers, and also for a tick that
its history refuses; but reports must have a name for every input that waits, for else
the tick is given up, and with it all the others are lost.
-/

namespace Harbormaster.Engine

variable {e : Engine}

/-- The engine with other inputs waiting for its next tick. -/
def awaiting (e : Engine) (inputs : List Input) : Engine := { e with pending := inputs }

/-- A snapshot of which no input was rejected. -/
def withoutRejections (s : Snapshot) : Snapshot :=
  { s with record := { s.record with inputFailures := [] } }

theorem snapshot_eq_commit (hnameable : e.Nameable) :
    e.tick.snapshot = (e.store.commit (.number e.runTick.1.number)
      (reportOf e.runTick.1 e.runTick.2) (finalWorld e.runTick.1)).map (·.2.1) := by
  rw [tick_of_nameable hnameable]
  unfold completeTick
  dsimp only
  split
  · rename_i hrefused
    rw [hrefused]
    rfl
  · rename_i hcommit
    rw [hcommit]
    rfl

/-- What a history makes of a record does not depend on the record. -/
theorem commit_withoutRejections (store : Store TickReport) (tick : Value) (report : TickReport)
    (w : World) :
    (store.commit tick { report with inputFailures := [] } w).map (·.2.1) =
      ((store.commit tick report w).map (·.2.1)).map withoutRejections := by
  unfold Store.commit
  dsimp only
  split
  · rfl
  · rfl

section Trials

variable {trials : List Trial} {w : World}

/-- What the inputs of an engine come to that wait for its tick. -/
theorem Tried.runTick (h : Tried e.translator e.state.stored trials w)
    (hinputs : trials.map (·.input) = e.pending) :
    e.runTick.2.world = w ∧ e.runTick.2.applied = (Trial.accepted trials).map Input.describe ∧
      e.runTick.2.failures = trials.filterMap Trial.rejection? := by
  have happly := h.applyInputs
  rw [hinputs] at happly
  exact happly

/-- The rules of a tick see of its inputs the world that these lead to. -/
theorem runTick_of_world {f : Engine} (hsame : f = e.awaiting f.pending)
    (hworld : f.runTick.2.world = e.runTick.2.world) : f.runTick.1 = e.runTick.1 := by
  have htick : ∀ g : Engine, g.runTick.1 = Tick.drain g.tickRules g.rules
      (g.rules.map QueueEntry.base) (g.beginTick g.state.stored.time g.runTick.2.world) :=
    fun _ => rfl
  rw [htick f, htick e, hworld, hsame]
  rfl

/-- Without the rejected inputs a tick runs as with them, and reports all its inputs as
applied. -/
theorem Tried.runTick_accepted (h : Tried e.translator e.state.stored trials w)
    (hinputs : trials.map (·.input) = e.pending) :
    (e.awaiting (Trial.accepted trials)).runTick.1 = e.runTick.1 ∧
      (e.awaiting (Trial.accepted trials)).runTick.2.applied = e.runTick.2.applied ∧
      (e.awaiting (Trial.accepted trials)).runTick.2.failures = [] := by
  obtain ⟨hworld, happlied, -⟩ := h.runTick hinputs
  have hfilter : Tried (e.awaiting (Trial.accepted trials)).translator
      (e.awaiting (Trial.accepted trials)).state.stored (trials.filter (·.accepts)) w := h.filter
  obtain ⟨hworld', happlied', hfailures'⟩ := hfilter.runTick rfl
  refine ⟨runTick_of_world rfl (hworld'.trans hworld.symm), ?_, ?_⟩
  · rw [happlied', happlied, Trial.accepted, List.filter_filter]
    simp only [Bool.and_self, Trial.accepted]
  · rw [hfailures', Trial.rejections_accepted]

theorem nameable_accepted (hnameable : e.Nameable) (hinputs : trials.map (·.input) = e.pending) :
    (e.awaiting (Trial.accepted trials)).Nameable := by
  intro input hinput
  obtain ⟨trial, htrial, rfl⟩ := List.mem_map.mp hinput
  exact hnameable _ (hinputs ▸ List.mem_map_of_mem (List.mem_filter.mp htrial).1)

theorem Tried.snapshot_accepted (hnameable : e.Nameable)
    (h : Tried e.translator e.state.stored trials w)
    (hinputs : trials.map (·.input) = e.pending) :
    (e.awaiting (Trial.accepted trials)).tick.snapshot =
      e.tick.snapshot.map withoutRejections := by
  obtain ⟨htick, happlied, hfailures⟩ := h.runTick_accepted hinputs
  have hreport : reportOf (e.awaiting (Trial.accepted trials)).runTick.1
      (e.awaiting (Trial.accepted trials)).runTick.2 =
        { reportOf e.runTick.1 e.runTick.2 with inputFailures := [] } := by
    rw [htick]
    simp only [reportOf, happlied, hfailures]
  rw [snapshot_eq_commit (nameable_accepted hnameable hinputs), snapshot_eq_commit hnameable,
    hreport, htick]
  exact commit_withoutRejections _ _ _ _

/-- Without the rejected inputs the engine ends with the same world and the same events. -/
theorem Tried.engine_accepted (hnameable : e.Nameable)
    (h : Tried e.translator e.state.stored trials w)
    (hinputs : trials.map (·.input) = e.pending) :
    (e.awaiting (Trial.accepted trials)).tick.engine.state = e.tick.engine.state ∧
      (e.awaiting (Trial.accepted trials)).tick.engine.bus = e.tick.engine.bus := by
  have hsnapshot := h.snapshot_accepted hnameable hinputs
  have hbus := congrArg (·.stage.bus) (h.runTick_accepted hinputs).1
  cases hs : e.tick.snapshot with
  | ok s =>
    rw [hs] at hsnapshot
    rw [(engine_of_commit hs).2, (engine_of_commit hsnapshot).2]
    refine ⟨?_, hbus⟩
    simp [state, Store.current, withoutRejections]
  | error failure =>
    rw [hs] at hsnapshot
    rw [engine_of_completed hnameable hs,
      engine_of_completed (nameable_accepted hnameable hinputs) hsnapshot]
    exact ⟨rfl, hbus⟩

end Trials

def mooring : Handler := fun _ _ =>
  .ok [⟨"environment.zone", .text "berth"⟩, ⟨"agents.ghost.speed", 0⟩]

def mooringEngine : Engine :=
  { rules := Rule.byPriority []
    maxChainDepth := standardChainDepth
    policy := .standard
    translator := Translator.builtIn.register "moor" mooring
    store := ⟨(default : World).stored, []⟩
    bus := (EventBus.new .tick).load ∅
    pending := [] }

def moorings : List Call :=
  [.submit ⟨"activate_docking_mode", .missing⟩, .submit ⟨"moor", .missing⟩,
    .submit ⟨"dive", .missing⟩]

/-- An input that is accepted, before one for which reports have no name. -/
def lostDocking : List Call :=
  [.submit ⟨"activate_docking_mode", .missing⟩, .submit namelessInput]

end Harbormaster.Engine
