import Harbormaster.Proofs.Event.Visibility
import Harbormaster.Proofs.Tick.Moments
import Harbormaster.Proofs.Tick.Contents

/-!
Events in the course of a tick. What the bus has spawned, what it shows and what the world
shows are three accounts of the events, kept at different places; the applications that
rules are explained with are a fourth one. They agree at every moment of a tick: the bus
has spawned what the applications tell of, in that order, and both the bus and the world
show of each type the event told of last, or else what the bus showed when the tick began.
-/

namespace Harbormaster

namespace EventBus

@[simp] theorem eventType_eventOf (b : EventBus) (request : SpawnRequest) :
    (b.eventOf request).eventType = request.eventType := by
  rw [Event.eventType, Record.member, get?_eventOf]
  rfl

@[simp] theorem sourceRule_eventOf (b : EventBus) (request : SpawnRequest) :
    (b.eventOf request).sourceRule = request.sourceRule := by
  rw [Event.sourceRule, Record.member, get?_eventOf]
  rfl

end EventBus

namespace Stage

variable {s : Stage} {known : String → Bool} {rule : Rule} {action : Action}

/-- What an action does about events: nothing, or it spawns one and tells of it. -/
inductive Spawns (s : Stage) : Stage → Except Failure Application → Prop where
  | nothing {s' : Stage} {result : Except Failure Application} (hbus : s'.bus = s.bus)
      (hworld : s'.world.events = s.world.events)
      (hnone : ∀ a, result = .ok a → a.event = none) : Spawns s s' result
  | event (request : SpawnRequest) {s' : Stage} {a : Application}
      (hbus : s'.bus = (s.bus.spawn request).2.1)
      (hworld : s'.world.events =
        s.world.events.set request.eventType.plainText (s.bus.eventOf request))
      (hevent : a.event = some (s.bus.eventOf request)) (hrequest : a.triggerRequest = none) :
      Spawns s s' (.ok a)

theorem spawns_execute (s : Stage) (known : String → Bool) (rule : Rule) (action : Action) :
    s.Spawns (s.execute known rule action).stage (s.execute known rule action).result := by
  unfold execute
  cases hdeed : Deed.ofAction known rule action s.world with
  | error failure => exact .nothing rfl rfl fun _ hresult => nomatch hresult
  | ok deed =>
    cases deed with
    | recommend | trigger | log =>
      refine .nothing rfl rfl ?_
      rintro a ⟨⟩
      rfl
    | spawn request => exact .event request rfl rfl rfl rfl
    | write target value range before message =>
      have hwrote := wrote_performWrite s rule action target value range before message
      simp only [perform]
      generalize (s.performWrite rule action target value range before message).stage = s'
        at hwrote ⊢
      generalize (s.performWrite rule action target value range before message).result = result
        at hwrote ⊢
      cases hwrote with
      | @intro _ _ outcome hend =>
        refine .nothing rfl (Ledger.events_of_end hend) ?_
        intro a ha
        cases outcome with
        | error => cases ha
        | ok outcome =>
          cases ha
          obtain ⟨_, hwritten⟩ := Application.written_eq action before outcome message
          exact congrArg Application.event hwritten

end Stage

namespace Tick

variable {r : TickRules} {waiting : List Rule} {source : QueueEntry} {rule : Rule}
  {action : Action} {t t' : Tick} {scheduled scheduled' : List QueueEntry} {ids : List String}

/-- The events that the applications tell of, in order. -/
def events (t : Tick) : List Event := t.applications.filterMap (·.event)

theorem events_of_told {a : Application} (h : t'.told = t.told ++ [(rule.id, a)]) :
    t'.events = t.events ++ a.event.toList := by
  unfold events
  rw [applications_eq, h, List.map_append, List.filterMap_append, ← applications_eq]
  cases hevent : a.event with
  | none | some => simp [hevent]

/-- An action spawns nothing, or one event that is told of at once. -/
theorem Act.events (h : Act r waiting source rule action t scheduled t' scheduled')
    (hlast : t.evaluated = ids ++ [rule.id]) (hnew : rule.id ∉ ids) :
    (t'.events = t.events ∧ t'.stage.bus = t.stage.bus ∧
      t'.stage.world.events = t.stage.world.events) ∨
    ∃ request, t'.events = t.events ++ [t.stage.bus.eventOf request] ∧
      t'.stage.bus = (t.stage.bus.spawn request).2.1 ∧
      t'.stage.world.events =
        t.stage.world.events.set request.eventType.plainText (t.stage.bus.eventOf request) := by
  obtain ⟨a, htold, ha⟩ := h.told hlast hnew
  rw [h.stage, events_of_told htold]
  have hspawns := t.stage.spawns_execute r.known rule action
  generalize (t.stage.execute r.known rule action).stage = s' at hspawns ⊢
  generalize (t.stage.execute r.known rule action).result = result at hspawns ha
  cases hspawns with
  | nothing hbus hworld hnone =>
    have hevent : a.event = none := by
      cases ha with
      | failed => rfl
      | @applied a₀ hresult => exact hnone a₀ hresult
    exact .inl ⟨by simp [hevent], hbus, hworld⟩
  | @event request _ a₀ hbus hworld hevent hrequest =>
    cases ha with
    | failed failure hasks => exact absurd hrequest (hasks a₀ rfl)
    | applied hresult =>
      cases hresult
      exact .inr ⟨request, by simp [hevent], hbus, hworld⟩

theorem events_of_told_eq (h : t'.told = t.told) : t'.events = t.events := by
  rw [events, applications_eq, h, ← applications_eq, events]

theorem events_noteIgnored (t : Tick) (entry : QueueEntry) :
    (t.noteIgnored entry).events = t.events :=
  events_of_told_eq (t.told_noteIgnored entry)

theorem events_opened (t : Tick) (source : QueueEntry) (rule : Rule) (notices : List Notice) :
    (t.opened source rule notices).events = t.events :=
  events_of_told_eq (t.told_opened source rule notices)

/-- The accounts that a tick keeps of its events agree, where `first` is what the bus showed
when it began. -/
structure Shows (first : Record Event) (t : Tick) : Prop where
  spawned : t.stage.bus.spawned = t.events
  world : t.stage.world.events = t.stage.bus.events
  seen : ∀ eventType, t.stage.bus.events.get? eventType =
    (Event.latest eventType t.events).or (first.get? eventType)

variable {first : Record Event}

theorem Shows.congr (h : Shows first t) (hevents : t'.events = t.events)
    (hbus : t'.stage.bus = t.stage.bus) (hworld : t'.stage.world.events = t.stage.world.events) :
    Shows first t' := by
  refine ⟨?_, ?_, ?_⟩
  · rw [hbus, hevents, h.spawned]
  · rw [hbus, hworld, h.world]
  · rw [hbus, hevents]
    exact h.seen

theorem Shows.act (h : Shows first t) (hlast : t.evaluated = ids ++ [rule.id])
    (hnew : rule.id ∉ ids) (hact : Act r waiting source rule action t scheduled t' scheduled') :
    Shows first t' := by
  rcases hact.events hlast hnew with ⟨hevents, hbus, hworld⟩ | ⟨request, hevents, hbus, hworld⟩
  · exact h.congr hevents hbus hworld
  · refine ⟨?_, ?_, ?_⟩
    · rw [hbus, hevents, ← h.spawned]
      rfl
    · rw [hbus, hworld, h.world, ← EventBus.eventType_eventOf]
      rfl
    · intro eventType
      rw [hbus, hevents, EventBus.get?_spawn, h.seen, Event.latest_append, Option.or_assoc]

/-- No action can set the accounts at odds. -/
theorem lasting_shows (r : TickRules) (first : Record Event) : Lasting r (Shows first) := by
  refine ⟨?_, ?_, fun hlast hnew hact h => h.act hlast hnew hact⟩
  · intro t entry h
    have hstage := t.stage_noteIgnored entry
    exact h.congr (t.events_noteIgnored entry) (by rw [hstage]) (by rw [hstage])
  · intro t rule source notices _ h
    exact h.congr (t.events_opened source rule notices) rfl rfl

end Tick

namespace Engine

variable {e : Engine} {t : Tick}

/-- At every moment of a tick the accounts of its events agree. -/
theorem Moment.shows (h : e.Moment t) (hdistinct : (e.rules.map (·.id)).Nodup) :
    t.Shows e.begun.stage.bus.events := by
  refine h.lasting (Tick.lasting_shows e.tickRules _) hdistinct ⟨?_, rfl, ?_⟩
  · exact EventBus.spawned_beginTick e.bus _
  · intro eventType
    rfl

end Engine

end Harbormaster
