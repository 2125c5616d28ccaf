import Harbormaster.Event.Bus
import Harbormaster.World.Cell

/-!
Which events can be seen, told from what has happened and not from the bus. Of each type
the last occurrence that concerns it decides: an event of that type was spawned, and is
there until something else happens to it; one was consumed; or a tick began, where events
do not outlast their tick. How the bus comes to agree with this is left to the modules on
ticks and on engines; here it does so call by call.
-/

namespace Harbormaster

namespace Event

/-- What a path below an event type shows, with the event that is seen there and with the
name that the path goes on with. -/
def shown (seen : Option Event) (key : Option String) : Except Failure Value :=
  match seen, key with
  | none, _ => .ok .absent
  | some _, none => .ok (.boolean true)
  | some event, some key => event.read key

def latest (eventType : String) (events : List Event) : Option Event :=
  (events.filter fun event => event.eventType.plainText = eventType).getLast?

@[simp] theorem latest_nil (eventType : String) : latest eventType [] = none := rfl

theorem latest_append (eventType : String) (former later : List Event) :
    latest eventType (former ++ later) =
      (latest eventType later).or (latest eventType former) := by
  simp [latest, List.getLast?_append]

theorem latest_singleton (eventType : String) (event : Event) :
    latest eventType [event] =
      if event.eventType.plainText = eventType then some event else none := by
  unfold latest
  by_cases htype : event.eventType.plainText = eventType
  · simp [htype]
  · simp [htype]

theorem mem_of_latest {eventType : String} {events : List Event} {event : Event}
    (h : latest eventType events = some event) : event ∈ events :=
  (List.mem_filter.mp (List.mem_of_getLast? h)).1

end Event

/-- What a rule reads of an event is what is shown of the event seen under its type. Where none
is seen, no other event may lend its members to the type, and the type may not be one that
every record answers. -/
theorem World.read_event {w : World} {text eventType : String} {key : Option String}
    (h : Path.parse? text = some (.event eventType key))
    (hown : (w.events.get? eventType).isSome = true ∨
      Value.shared? eventType = none ∧ w.events.get? Record.baseName = none) :
    w.read text = Event.shown (w.events.get? eventType) key := by
  have hread : w.read text = w.readAt (.event eventType key) := by
    rw [World.read, Path.require, h]
    rfl
  rw [hread]
  cases hseen : w.events.get? eventType with
  | none =>
    obtain ⟨htype, hbase⟩ := hown.resolve_left (by simp [hseen])
    have hnone : w.event? eventType = none := by simp [event?, hseen, hbase, htype]
    simp [World.readAt, hnone, Event.shown]
  | some event =>
    have hsome : w.event? eventType = some (.record event.members) := by
      simp [event?, hseen, Value.counts]
    cases key with
    | none | some => simp [World.readAt, hsome, Event.shown, Event.read]

/-- What can happen to the events of an engine. -/
inductive Occurrence where
  /-- A tick began. -/
  | began
  | spawned (event : Event)
  | consumed (eventType : String)

namespace Occurrence

def concerns (lifetime : Lifetime) (eventType : String) : Occurrence → Bool
  | began => lifetime = .tick
  | spawned event => event.eventType.plainText = eventType
  | consumed name => name = eventType

/-- The event of a type that is there after what has happened, where `first` was there
before all of it. -/
def held (lifetime : Lifetime) (eventType : String) (first : Option Event)
    (log : List Occurrence) : Option Event :=
  match (log.filter (·.concerns lifetime eventType)).getLast? with
  | none => first
  | some (.spawned event) => some event
  | some .began | some (.consumed _) => none

variable {lifetime : Lifetime} {eventType : String} {first : Option Event}

@[simp] theorem held_nil : held lifetime eventType first [] = first := rfl

/-- What has happened so far is all that later occurrences have to know. -/
theorem held_append (former later : List Occurrence) :
    held lifetime eventType first (former ++ later) =
      held lifetime eventType (held lifetime eventType first former) later := by
  unfold held
  rw [List.filter_append, List.getLast?_append]
  cases (later.filter (·.concerns lifetime eventType)).getLast? with
  | none => rfl
  | some last =>
    cases last with
    | began | spawned | consumed => rfl

theorem held_began :
    held lifetime eventType first [.began] = if lifetime = .tick then none else first := by
  cases lifetime with
  | tick | persistent => rfl

theorem held_consumed (name : String) :
    held lifetime eventType first [.consumed name] =
      if eventType = name then none else first := by
  by_cases hname : name = eventType
  · simp [held, concerns, hname]
  · have hother : eventType ≠ name := fun heq => hname heq.symm
    simp [held, concerns, hname, hother]

/-- Of what was spawned only the last event of the type counts. -/
theorem held_spawned (events : List Event) :
    held lifetime eventType first (events.map .spawned) =
      (Event.latest eventType events).or first := by
  have hlast : ((events.map Occurrence.spawned).filter (·.concerns lifetime eventType)).getLast? =
      (Event.latest eventType events).map .spawned := by
    rw [List.filter_map, List.getLast?_map]
    rfl
  unfold held
  rw [hlast]
  cases Event.latest eventType events with
  | none | some => rfl

end Occurrence

namespace EventBus

variable {b : EventBus} {eventType : String}

theorem get?_beginTick (b : EventBus) (tick : Value) (eventType : String) :
    (b.beginTick tick).1.events.get? eventType =
      if b.lifetime = .tick then none else b.events.get? eventType := by
  unfold beginTick
  dsimp only
  split
  · rename_i hdropped
    rw [if_pos hdropped.1]
    rfl
  · rename_i hkept
    split
    · rename_i htick
      -- nothing was dropped, so there was nothing
      have hempty : b.events.entries = [] :=
        List.length_eq_zero_iff.mp (Nat.eq_zero_of_not_pos fun hsome => hkept ⟨htick, hsome⟩)
      simp [Record.get?, hempty, Record.lookupIn]
    · rfl

@[simp] theorem spawned_beginTick (b : EventBus) (tick : Value) :
    (b.beginTick tick).1.spawned = [] := by
  unfold beginTick
  dsimp only
  split <;> rfl

@[simp] theorem lifetime_beginTick (b : EventBus) (tick : Value) :
    (b.beginTick tick).1.lifetime = b.lifetime := by
  unfold beginTick
  dsimp only
  split <;> rfl

@[simp] theorem tick_beginTick (b : EventBus) (tick : Value) :
    (b.beginTick tick).1.tick = tick := by
  unfold beginTick
  dsimp only
  split <;> rfl

/-- A spawned event is seen under the type that it names. -/
theorem get?_spawn (b : EventBus) (request : SpawnRequest) (eventType : String) :
    (b.spawn request).2.1.events.get? eventType =
      (Event.latest eventType [b.eventOf request]).or (b.events.get? eventType) := by
  rw [Event.latest_singleton]
  simp only [spawn, Record.get?_set]
  by_cases htype : (b.eventOf request).eventType.plainText = eventType
  · simp [htype]
  · have hother : eventType ≠ (b.eventOf request).eventType.plainText := fun heq => htype heq.symm
    simp [htype, hother]

theorem get?_consume (b : EventBus) (name eventType : String) :
    (b.consume name).2.events.get? eventType =
      if eventType = name then none else b.events.get? eventType :=
  Record.get?_erase b.events name eventType

end EventBus

end Harbormaster
