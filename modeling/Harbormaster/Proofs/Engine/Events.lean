import Harbormaster.Proofs.Engine.Clock
import Harbormaster.Proofs.Engine.Commits
import Harbormaster.Proofs.Tick.Spawns
import Harbormaster.Proofs.World.Filled

/-!
Events over whole runs. The log of a run lists what has happened to the events of an
engine, tick by tick and call by call: that a tick began, which events its applications
tell of, and which types were consumed. It is drawn from explanations and calls alone, and
it decides what rules can see, what is committed and what can still be consumed. This
holds also of ticks that the history refuses, which spawn their events all the same.
-/

namespace Harbormaster

namespace Occurrence

def carried (lifetime : Lifetime) (eventType : String) (first : Option Event)
    (log : List Occurrence) : Option Event :=
  match lifetime with
  | .tick => none
  | .persistent => held .persistent eventType first log

theorem carried_eq (lifetime : Lifetime) (eventType : String) (first : Option Event)
    (log : List Occurrence) :
    carried lifetime eventType first log =
      if lifetime = .tick then none else held lifetime eventType first log := by
  cases lifetime with
  | tick | persistent => rfl

/-- The event of a type that is seen in a tick which has spawned some events so far. -/
def seen (lifetime : Lifetime) (eventType : String) (first : Option Event)
    (log : List Occurrence) (spawned : List Event) : Option Event :=
  (Event.latest eventType spawned).or (carried lifetime eventType first log)

end Occurrence

namespace Engine

open Occurrence (held)

/-- What a call does to the events of an engine. A tick that reports cannot name all inputs
for does not come to the events. -/
def occurrences (e : Engine) : Call → List Occurrence
  | .tick => if e.Nameable then .began :: e.runTick.1.events.map .spawned else []
  | .consume eventType => [.consumed eventType]
  | .submit _ | .submitWrite .. => []

/-- What calls do to the events of an engine, in order. -/
def log (e : Engine) : List Call → List Occurrence
  | [] => []
  | c :: rest => e.occurrences c ++ (e.call c).log rest

variable {e : Engine} {t : Tick} {c : Call} {eventType : String}

@[simp] theorem events_begun (e : Engine) : e.begun.events = [] := rfl

theorem get?_begun (e : Engine) (eventType : String) :
    e.begun.stage.bus.events.get? eventType =
      if e.bus.lifetime = .tick then none else e.bus.events.get? eventType :=
  EventBus.get?_beginTick e.bus _ eventType

/-- Whether or not a tick is committed, the bus is as its rules have left it. -/
theorem bus_of_tick (h : e.Nameable) : e.tick.engine.bus = e.runTick.1.stage.bus := by
  cases hsnapshot : e.tick.snapshot with
  | ok s => rw [(engine_of_commit hsnapshot).2]
  | error failure => rw [engine_of_completed h hsnapshot]

/-- The bus shows what the log of a call leaves of what it showed before. -/
theorem get?_call (hdistinct : (e.rules.map (·.id)).Nodup) (c : Call) (eventType : String) :
    (e.call c).bus.events.get? eventType =
      held e.bus.lifetime eventType (e.bus.events.get? eventType) (e.occurrences c) := by
  cases c with
  | submit | submitWrite => rfl
  | consume name =>
    rw [occurrences, Occurrence.held_consumed]
    exact EventBus.get?_consume e.bus name eventType
  | tick =>
    change e.tick.engine.bus.events.get? eventType = _
    by_cases hnameable : e.Nameable
    · have hshows := e.moment_runTick.shows hdistinct
      have hlog : e.occurrences .tick = [.began] ++ e.runTick.1.events.map .spawned :=
        if_pos hnameable
      rw [bus_of_tick hnameable, hlog, Occurrence.held_append, Occurrence.held_spawned,
        Occurrence.held_began, ← get?_begun]
      exact hshows.seen eventType
    · have hlog : e.occurrences .tick = [] := if_neg hnameable
      rw [tick_of_not_nameable hnameable, hlog]
      rfl

/-- What the bus shows after a run is decided by the log of the run. -/
theorem get?_after (hdistinct : (e.rules.map (·.id)).Nodup) (calls : List Call)
    (eventType : String) :
    (e.after calls).bus.events.get? eventType =
      held e.bus.lifetime eventType (e.bus.events.get? eventType) (e.log calls) := by
  induction calls generalizing e with
  | nil => rfl
  | cons c rest ih =>
    have hrules : ((e.call c).rules.map (·.id)).Nodup := by
      rw [(sameSetup_call e c).rules]
      exact hdistinct
    have hlifetime : (e.call c).bus.lifetime = e.bus.lifetime := lifetime_after e [c]
    rw [log, Occurrence.held_append, ← get?_call hdistinct, ← hlifetime]
    exact ih hrules

/-- An engine after a run whose events follow their lifetime, where `first` are the events
that there were before the run, and `log` tells what has happened to events in it. -/
structure FollowsLifetime (e : Engine) (lifetime : Lifetime) (first : Record Event)
    (log : List Occurrence) : Prop where
  /-- At every moment of the next tick. -/
  seen : ∀ t, e.Moment t → ∀ eventType, t.stage.world.events.get? eventType =
    Occurrence.seen lifetime eventType (first.get? eventType) log t.events
  /-- And this is what rules read. Of a type under which nothing is seen they read something
  only if every record answers it, or if some event lends its members to all types. -/
  read : ∀ t, e.Moment t → ∀ text eventType key,
    Path.parse? text = some (.event eventType key) →
      (Occurrence.seen lifetime eventType (first.get? eventType) log t.events).isSome = true ∨
        Value.shared? eventType = none ∧
          Occurrence.seen lifetime Record.baseName (first.get? Record.baseName) log t.events =
            none →
      t.stage.world.read text =
        Event.shown (Occurrence.seen lifetime eventType (first.get? eventType) log t.events) key
  fresh : lifetime = .tick → ∀ t, e.Moment t → ∀ eventType event,
    t.stage.world.events.get? eventType = some event → event ∈ t.events
  /-- What the next tick commits is what is seen at its end, as a document holds it. -/
  committed : ∀ s, e.tick.snapshot = .ok s → ∀ eventType, eventType ≠ Record.baseName →
    s.state.events.get? eventType =
      (Occurrence.seen lifetime eventType (first.get? eventType) log e.runTick.1.events).map
        Event.stored
  /-- That is the very event where it is made of scalars and all its numbers are finite. -/
  kept : ∀ s, e.tick.snapshot = .ok s → ∀ eventType event, eventType ≠ Record.baseName →
    Occurrence.seen lifetime eventType (first.get? eventType) log e.runTick.1.events = some event →
      event.members.MadeOf Value.isScalar → event.Finite →
        s.state.events.get? eventType = some event
  consumed : ∀ eventType, (e.consume eventType).1 =
    (held lifetime eventType (first.get? eventType) log).isSome

/-- What is seen under a type is the event of that type that the tick has spawned last, and
else what the bus showed before the tick, if events outlast their tick. -/
theorem followsLifetime_of_get? {lifetime : Lifetime} {first : Record Event}
    {log : List Occurrence} (hdistinct : (e.rules.map (·.id)).Nodup)
    (hlifetime : e.bus.lifetime = lifetime)
    (hbus : ∀ eventType, e.bus.events.get? eventType =
      held lifetime eventType (first.get? eventType) log) :
    e.FollowsLifetime lifetime first log := by
  have hseen : ∀ t, e.Moment t → ∀ eventType, t.stage.bus.events.get? eventType =
      Occurrence.seen lifetime eventType (first.get? eventType) log t.events := by
    intro t ht eventType
    rw [(ht.shows hdistinct).seen, get?_begun, hlifetime, hbus, ← Occurrence.carried_eq]
    rfl
  have hworld : ∀ t, e.Moment t → ∀ eventType, t.stage.world.events.get? eventType =
      Occurrence.seen lifetime eventType (first.get? eventType) log t.events := by
    intro t ht eventType
    rw [(ht.shows hdistinct).world]
    exact hseen t ht eventType
  have hcommitted : ∀ s, e.tick.snapshot = .ok s → ∀ eventType, eventType ≠ Record.baseName →
      s.state.events.get? eventType =
        (Occurrence.seen lifetime eventType (first.get? eventType) log e.runTick.1.events).map
          Event.stored := by
    intro s hs eventType htype
    have hlisted : e.runTick.1.stage.bus.listed.get? eventType =
        e.runTick.1.stage.bus.events.get? eventType :=
      (Record.get?_erase _ _ _).trans (if_neg htype)
    rw [(snapshot_of_tick hs).2, ← hseen _ e.moment_runTick, ← hlisted]
    exact Record.get?_map Event.stored _ eventType
  refine ⟨hworld, ?_, ?_, hcommitted, ?_, ?_⟩
  · intro t ht text eventType key hparse hown
    rw [← hworld t ht eventType, ← hworld t ht Record.baseName] at hown
    rw [← hworld t ht]
    exact World.read_event hparse hown
  · rintro rfl t ht eventType event hevent
    rw [hworld t ht, Occurrence.seen, Occurrence.carried, Option.or_none] at hevent
    exact Event.mem_of_latest hevent
  · intro s hs eventType event htype hevent hmade hfinite
    rw [hcommitted s hs eventType htype, hevent, Option.map_some, hfinite.stored hmade]
  · intro eventType
    rw [← hbus]
    rfl

variable {initial : World} {rules : RuleSet} {options : EngineOptions} {notice : Notice}

/-- Events follow their lifetime over whole runs. At every moment of a tick a rule reads,
of each type, the event that was spawned last in this tick before that moment. If there is
none it reads, with persistent events only, the one spawned last in an earlier tick or
present in the first world, unless it was consumed since. What is committed is what could be
read at the end of the tick, and an event can be consumed as long as it is there. Types that
every record answers are another matter, and so is `__proto__`: what is spawned under it lends
its members to all types, and no document lists it. -/
theorem events_follow_lifetime (hnew : new initial rules options = .ok (e, notice)) :
    (∃ start : Nat, initial.time.toInt? = some (start : Int) ∧
      ∀ calls, (e.after calls).Nameable → start + ticks calls < 2 ^ 53 →
        ∃ s, (e.after calls).tick.snapshot = .ok s) ∧
    ∀ calls, (e.after calls).FollowsLifetime options.lifetime (initial.events.map Event.stored)
      (e.log calls) := by
  obtain ⟨start, hbegins, -, -⟩ := onTime_of_new hnew
  refine ⟨⟨start, hbegins, fun calls hnameable hlimit =>
    commits_of_new hnew hbegins hnameable hlimit⟩, ?_⟩
  intro calls
  obtain ⟨-, -, hlifetime⟩ := setup_of_new hnew
  obtain ⟨-, hevents, -⟩ := given_of_new hnew
  have hids : (e.rules.map (·.id)).Nodup := ids_after hnew []
  refine followsLifetime_of_get? (ids_after hnew calls) ?_ ?_
  · rw [lifetime_after, hlifetime]
  · intro eventType
    rw [get?_after hids, hlifetime, hevents]

def raising : Rule :=
  { Stage.ranked "raising" 1 with
    actions := [⟨.spawnEvent, .ofList [("eventType", "storm")]⟩] }

def tidal : World :=
  { (default : World) with events := .ofList [("tide", ⟨.ofList [("eventType", "tide")]⟩)] }

def stormyEngine : Engine :=
  { rules := Rule.byPriority [raising]
    maxChainDepth := standardChainDepth
    policy := .standard
    translator := .builtIn
    store := ⟨tidal.stored, []⟩
    bus := (EventBus.new .persistent).load (tidal.events.map Event.stored)
    pending := [] }

theorem types_stormyEngine :
    stormyEngine.runTick.1.events.map (·.eventType.plainText) = ["storm"] := by
  have hperm : (Rule.byPriority [raising]).Perm [raising] := Rule.perm_byPriority _
  have hsorted := List.perm_singleton.mp hperm
  unfold runTick tickRules stormyEngine
  simp only [hsorted]
  rw [Tick.drain_eq_turns (by decide)]
  decide +kernel

/-- The storm outlasts the tick that has spawned it, and the tide does not outlast being
consumed. -/
theorem storm_follows_tide :
    ∃ e notice, new tidal ⟨[raising], .standard⟩
        { EngineOptions.standard with lifetime := .persistent } = .ok (e, notice) ∧
      ((e.after [.tick]).consume "tide").1 = true ∧
      (e.after [.tick, .consume "tide"]).begun.stage.world.read "events.storm" = .ok true ∧
      (e.after [.tick, .consume "tide"]).begun.stage.world.read "events.tide" = .ok .absent := by
  obtain ⟨notice, hnew⟩ : ∃ notice, new tidal ⟨[raising], .standard⟩
      { EngineOptions.standard with lifetime := .persistent } = .ok (stormyEngine, notice) :=
    ⟨_, rfl⟩
  obtain ⟨-, hfollows⟩ := events_follow_lifetime hnew
  obtain ⟨storm, hevents, htype⟩ := List.map_eq_singleton_iff.mp types_stormyEngine
  have hlog : stormyEngine.occurrences .tick = [.began, .spawned storm] := by
    rw [occurrences, hevents]
    rfl
  have hstorm : stormyEngine.log [.tick] = [.began, .spawned storm] := by simp [log, hlog]
  have htide : stormyEngine.log [.tick, .consume "tide"] =
      [.began, .spawned storm, .consumed "tide"] := by
    simp only [log, hlog]
    rfl
  have hstormPath : Path.parse? "events.storm" = some (.event "storm" none) := by decide +kernel
  have htidePath : Path.parse? "events.tide" = some (.event "tide" none) := by decide +kernel
  have hbase : Occurrence.seen .persistent Record.baseName
      ((tidal.events.map Event.stored).get? Record.baseName)
      (stormyEngine.log [.tick, .consume "tide"]) [] = none := by
    rw [htide]
    simp [Occurrence.seen, Occurrence.carried, held, Occurrence.concerns, htype, Record.baseName]
    rfl
  have hread := (hfollows [.tick, .consume "tide"]).read _ (moment_begun _)
  refine ⟨stormyEngine, notice, hnew, ?_, ?_, ?_⟩
  · rw [(hfollows [.tick]).consumed, hstorm]
    simp [held, Occurrence.concerns, htype]
    rfl
  · rw [hread _ _ _ hstormPath (.inr ⟨rfl, hbase⟩), htide]
    simp [Occurrence.seen, Occurrence.carried, held, Occurrence.concerns, htype, Event.shown]
  · rw [hread _ _ _ htidePath (.inr ⟨rfl, hbase⟩), htide]
    simp [Occurrence.seen, Occurrence.carried, held, Occurrence.concerns, htype, Event.shown]

/-- An engine that has never had an event shows one of a type that every record answers. -/
theorem constructor_is_seen :
    ∃ e notice, new default ⟨[], .standard⟩ EngineOptions.standard = .ok (e, notice) ∧
      Occurrence.seen .tick "constructor" ((default : World).events.get? "constructor")
        (e.log []) e.begun.events = none ∧
      e.begun.stage.world.read "events.constructor" = .ok true := by
  have hpath : Path.require "events.constructor" = .ok (.event "constructor" none) := by
    unfold Path.require
    rw [show Path.parse? "events.constructor" = some (.event "constructor" none) by
      decide +kernel]
  refine ⟨_, _, rfl, rfl, ?_⟩
  rw [World.read, hpath]
  rfl

end Engine

end Harbormaster
