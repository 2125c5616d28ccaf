import Harbormaster.Proofs.Engine.Clock
import Harbormaster.Proofs.Engine.Commits
import Harbormaster.Proofs.Tick.Identifiers

/-!
Identifiers over whole runs. Ticks of a run have numbers of their own and the events of a
tick have places of their own, so that no name is given twice in a run, whatever becomes of
the events. That different names have different identifiers cannot be shown of a digest of
fixed length; it is asked for, of the names of the run only, where identifiers are said to
be distinct.
-/

namespace Harbormaster

/-- The identifiers that the explanations of a report list, in order. -/
def TickReport.eventsGenerated (r : TickReport) : List Value :=
  r.explanations.flatMap (·.eventsGenerated)

theorem Value.storedItems_of_texts {items : List Value} (h : ∀ v ∈ items, ∃ s, v = .text s) :
    storedItems items = items := by
  induction items with
  | nil => rfl
  | cons v rest ih =>
    obtain ⟨s, rfl⟩ := h v List.mem_cons_self
    rw [storedItems, ih fun other hother => h other (List.mem_cons_of_mem _ hother)]
    rfl

namespace Engine

/-- The names of the events that a call spawns, in order. A tick that is given up spawns none. -/
def namesOf (e : Engine) : Call → List String
  | .tick => if e.Nameable then e.runTick.1.names else []
  | .submit _ | .submitWrite .. | .consume _ => []

/-- The names of the events that calls spawn, in order. -/
def names (e : Engine) : List Call → List String
  | [] => []
  | c :: rest => e.namesOf c ++ (e.call c).names rest

variable {e : Engine} {s : Snapshot} {start : Nat}

/-- A committed tick lists the identifiers of its events, and counts them. -/
theorem eventsGenerated_of_tick (hdistinct : (e.rules.map (·.id)).Nodup)
    (hs : e.tick.snapshot = .ok s) :
    s.record.eventsGenerated = e.runTick.1.names.map EventBus.idOf ∧
      s.record.stats.eventsSpawned = .ofNat s.record.eventsGenerated.length := by
  have hfirst : e.begun.Shows e.begun.stage.bus.events ∧ e.begun.Identified :=
    ⟨e.moment_begun.shows hdistinct, EventBus.tick_beginTick e.bus _, rfl⟩
  obtain ⟨hshows, hidentified⟩ :=
    e.moment_runTick.lasting (Tick.lasting_identified e.tickRules _) hdistinct hfirst
  have hlists : e.runTick.1.ListsEvents :=
    e.moment_runTick.lasting (Tick.lasting_listsEvents e.tickRules) hdistinct
      fun _ hd => (List.not_mem_nil hd).elim
  have hids := hlists.flatMap.trans hidentified.ids
  have hgenerated : s.record.eventsGenerated = e.runTick.1.names.map EventBus.idOf := by
    rw [(snapshot_of_tick hs).1, ← hids]
    unfold TickReport.eventsGenerated TickReport.stored reportOf
    dsimp only
    rw [List.map_map, List.flatMap_map]
    refine List.flatMap_congr fun d hd => Value.storedItems_of_texts ?_
    intro v hv
    have hlisted : v ∈ e.runTick.1.names.map EventBus.idOf :=
      hids ▸ List.mem_flatMap.mpr ⟨d, hd, hv⟩
    obtain ⟨name, -, rfl⟩ := List.mem_map.mp hlisted
    exact ⟨_, rfl⟩
  refine ⟨hgenerated, ?_⟩
  have hlength : s.record.eventsGenerated.length = e.runTick.1.stage.bus.spawned.length := by
    rw [hgenerated, List.length_map, Tick.names, EventBus.length_names, hshows.spawned]
  rw [hlength, (snapshot_of_tick hs).1]
  rfl

/-- A name that a run gives tells a tick that is not over when the run begins. -/
theorem tick_of_mem_names (honTime : OnTime start e) {calls : List Call}
    (hlimit : start + e.history.length + ticks calls ≤ Number.exactLimit) {name : String}
    (hname : name ∈ e.names calls) :
    ∃ n events, start + e.history.length ≤ n ∧ n < Number.exactLimit ∧
      name ∈ EventBus.names (.number (.ofNat n)) events := by
  induction calls generalizing e with
  | nil => cases hname
  | cons c rest ih =>
    have hticks := ticks_cons c rest
    have hlength := history_length_call e c
    have hgrows := (history_call e c).length_le
    rcases List.mem_append.mp hname with hfirst | hrest
    · cases c with
      | submit | submitWrite | consume => cases hfirst
      | tick =>
        have hone : ticks [.tick] = 1 := rfl
        obtain ⟨hnumber, -⟩ := honTime.number (by omega)
        refine ⟨_, e.runTick.1.events, le_rfl, by omega, ?_⟩
        rw [← hnumber]
        change name ∈ if e.Nameable then e.runTick.1.names else [] at hfirst
        split at hfirst
        · exact hfirst
        · cases hfirst
    · obtain ⟨n, events, hlater, hn, hmember⟩ :=
        ih (honTime.call (c := c) (by omega)) (by omega) hrest
      exact ⟨n, events, by omega, hn, hmember⟩

/-- No name is given twice in a run. -/
theorem nodup_names (honTime : OnTime start e) {calls : List Call}
    (hlimit : start + e.history.length + ticks calls ≤ Number.exactLimit) :
    (e.names calls).Nodup := by
  induction calls generalizing e with
  | nil => exact List.nodup_nil
  | cons c rest ih =>
    have hticks := ticks_cons c rest
    have hlength := history_length_call e c
    have hcall := honTime.call (c := c) (by omega)
    have hlater := ih hcall (by omega)
    cases c with
    | submit | submitWrite | consume => exact hlater
    | tick =>
      have hone : ticks [.tick] = 1 := rfl
      obtain ⟨hnumber, -⟩ := honTime.number (by omega)
      have hnames : e.runTick.1.names = EventBus.names
          (.number (.ofNat (start + e.history.length))) e.runTick.1.events := by
        rw [Tick.names, hnumber]
      have hhere : start + e.history.length < Number.exactLimit := by omega
      change ((if e.Nameable then e.runTick.1.names else []) ++ (e.call .tick).names rest).Nodup
      split
      · rename_i hnameable
        obtain ⟨s, -, -, -, hhistory, -, -⟩ := honTime.tick hnameable hhere
        have hnext : (e.call .tick).history.length = e.history.length + 1 :=
          (congrArg List.length hhistory).trans (List.length_append ..)
        rw [hnames]
        refine List.Nodup.append (EventBus.nodup_names hhere _) hlater ?_
        intro name hfirst hrest
        obtain ⟨n, events, hn, hbelow, hmember⟩ := tick_of_mem_names hcall (by omega) hrest
        have hsame := EventBus.tick_of_mem_names hhere hbelow hfirst hmember
        omega
      · exact hlater

/-- The snapshots of a run list the identifiers of its events, and count them tick by tick. -/
theorem eventsGenerated_after (honTime : OnTime start e) (hdistinct : (e.rules.map (·.id)).Nodup)
    {calls : List Call} (hlimit : start + e.history.length + ticks calls ≤ Number.exactLimit)
    (hcounts : ∀ s ∈ e.history,
      s.record.stats.eventsSpawned = .ofNat s.record.eventsGenerated.length) :
    (e.after calls).history.flatMap (·.record.eventsGenerated) =
        e.history.flatMap (·.record.eventsGenerated) ++ (e.names calls).map EventBus.idOf ∧
      ∀ s ∈ (e.after calls).history,
        s.record.stats.eventsSpawned = .ofNat s.record.eventsGenerated.length := by
  induction calls generalizing e with
  | nil => exact ⟨(List.append_nil _).symm, hcounts⟩
  | cons c rest ih =>
    have hticks := ticks_cons c rest
    have hlength := history_length_call e c
    have hcall := honTime.call (c := c) (by omega)
    have hrules : ((e.call c).rules.map (·.id)).Nodup := by
      rw [(sameSetup_call e c).rules]
      exact hdistinct
    cases c with
    | submit | submitWrite | consume => exact ih hcall hrules (by omega) hcounts
    | tick =>
      have hone : ticks [.tick] = 1 := rfl
      by_cases hnameable : e.Nameable
      · obtain ⟨s, hs, -, -, hhistory, -, -⟩ := honTime.tick hnameable (by omega)
        obtain ⟨hgenerated, hcount⟩ := eventsGenerated_of_tick hdistinct hs
        have hhistory' : (e.call .tick).history = e.history ++ [s] := hhistory
        obtain ⟨hlisted, hcounted⟩ := ih hcall hrules (by omega) (by
          intro s' hs'
          rw [hhistory'] at hs'
          rcases List.mem_append.mp hs' with hformer | hlast
          · exact hcounts s' hformer
          · rw [List.mem_singleton.mp hlast]
            exact hcount)
        refine ⟨?_, hcounted⟩
        change ((e.call .tick).after rest).history.flatMap _ = _
        rw [hlisted, hhistory', List.flatMap_append, List.flatMap_singleton, hgenerated, names,
          namesOf, if_pos hnameable, List.map_append, List.append_assoc]
      · have hhistory : (e.call .tick).history = e.history := by
          change e.tick.engine.history = e.history
          rw [tick_of_not_nameable hnameable]
          rfl
        obtain ⟨hlisted, hcounted⟩ := ih hcall hrules (by omega) (hhistory ▸ hcounts)
        refine ⟨?_, hcounted⟩
        change ((e.call .tick).after rest).history.flatMap _ = _
        rw [hlisted, hhistory, names, namesOf, if_neg hnameable, List.nil_append]

variable {initial : World} {rules : RuleSet} {options : EngineOptions} {notice : Notice}

def signalling : Rule :=
  { Stage.ranked "tower:1" 1 with
    actions := [⟨.spawnEvent, .ofList [("eventType", "gale")]⟩,
      ⟨.spawnEvent, .ofList [("eventType", "1:gale")]⟩] }

def signallingEngine : Engine :=
  { rules := Rule.byPriority [signalling]
    maxChainDepth := standardChainDepth
    policy := .standard
    translator := .builtIn
    store := ⟨(default : World).stored, []⟩
    bus := (EventBus.new .tick).load ∅
    pending := [] }

theorem names_signallingEngine :
    signallingEngine.runTick.1.names = ["0:0:tower:1:gale", "0:1:tower:1:1:gale"] := by
  have hperm : (Rule.byPriority [signalling]).Perm [signalling] := Rule.perm_byPriority _
  have hsorted := List.perm_singleton.mp hperm
  unfold runTick tickRules signallingEngine
  simp only [hsorted]
  rw [Tick.drain_eq_turns (by decide)]
  decide +kernel

end Engine

end Harbormaster
