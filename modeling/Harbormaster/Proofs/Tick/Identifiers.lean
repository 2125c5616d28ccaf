import Harbormaster.Proofs.Event.Names
import Harbormaster.Proofs.Tick.Spawns
import Harbormaster.Proofs.Tick.Stops

/-!
Identifiers in the course of a tick. Every event of a tick is identified by its name, which
tells how many events there were before it, and explanations list the identifiers of the
events that their applications tell of. Nothing is said here of ticks apart, and what the
identifiers are made of by a name is left open.
-/

namespace Harbormaster

theorem EventBus.id_eventOf (b : EventBus) (request : SpawnRequest) :
    (b.eventOf request).id =
      idOf (eventName b.tick b.spawned.length request.sourceRule request.eventType) := by
  rw [Event.id, Record.member, get?_eventOf]
  rfl

namespace Draft

def ListsEvents (d : Draft) : Prop :=
  d.eventsGenerated = d.applications.filterMap fun a => a.event.map (·.id)

theorem Annotates.listsEvents {f : Draft → Draft} (hf : Annotates f) {d : Draft}
    (h : d.ListsEvents) : (f d).ListsEvents := by
  obtain ⟨_, _, heq⟩ := hf d
  rw [heq]
  exact h

theorem ListsEvents.recordApplication {d : Draft} (h : d.ListsEvents) {a : Application}
    (hsuccess : a.success = true) : (d.recordApplication a).ListsEvents := by
  unfold ListsEvents at h ⊢
  rw [recordApplication_applications, List.filterMap_append, ← h]
  unfold Draft.recordApplication
  dsimp only
  rw [if_pos hsuccess]
  cases hevent : a.event with
  | none | some => simp [hevent]

/-- An action that failed tells of no event. -/
theorem ListsEvents.recordFailed {d : Draft} (h : d.ListsEvents) (action : Action)
    (failure : Failure) :
    ((d.recordApplication (.failed action failure .absent)).addFailure
      failure.recorded).ListsEvents := by
  unfold ListsEvents at h ⊢
  rw [addFailure_applications, recordApplication_applications, List.filterMap_append, ← h]
  simp [Draft.recordApplication, addFailure, Application.failed, Application.plain]

end Draft

namespace Tick

variable {r : TickRules} {waiting : List Rule} {source : QueueEntry} {rule : Rule}
  {action : Action} {t t' : Tick} {scheduled scheduled' : List QueueEntry} {ids : List String}

def ListsEvents (t : Tick) : Prop := ∀ d ∈ t.drafts, d.ListsEvents

theorem ListsEvents.map (h : t.ListsEvents) {g : Draft → Draft}
    (hg : ∀ d : Draft, d.ListsEvents → (g d).ListsEvents) (hdrafts : t'.drafts = t.drafts.map g) :
    t'.ListsEvents := by
  intro d hd
  rw [hdrafts] at hd
  obtain ⟨former, hformer, rfl⟩ := List.mem_map.mp hd
  exact hg former (h former hformer)

theorem ListsEvents.updateDraft (h : t.ListsEvents) (id : String) {f : Draft → Draft}
    (hf : ∀ d : Draft, d.ListsEvents → (f d).ListsEvents) : (t.updateDraft id f).ListsEvents := by
  refine h.map (g := fun d => if d.rule.id = id then f d else d) ?_ rfl
  intro d hd
  split
  · exact hf d hd
  · exact hd

theorem ListsEvents.recordApplied (h : t.ListsEvents) (rule : Rule) {a : Application}
    (hsuccess : a.success = true) : (t.recordApplied rule a).ListsEvents := by
  obtain ⟨g, hg, heq⟩ := recordApplied_annotates t rule a
  have hupdated : (t.updateDraft rule.id (·.recordApplication a)).ListsEvents :=
    h.updateDraft rule.id fun _ hd => hd.recordApplication hsuccess
  rw [heq]
  exact hupdated.map (fun _ => hg.listsEvents) rfl

theorem ListsEvents.act (h : t.ListsEvents)
    (hact : Act r waiting source rule action t scheduled t' scheduled') : t'.ListsEvents := by
  have hperformed : (t.perform r rule action).ListsEvents := h
  cases hact with
  | @failed failure =>
    exact hperformed.updateDraft rule.id fun _ hd => hd.recordFailed action failure
  | overflowed => exact hperformed.updateDraft rule.id fun _ hd => hd.recordFailed action _
  | applied hresult | queued hresult =>
    exact hperformed.recordApplied rule (Stage.success_of_execute hresult)
  | @ignored a _ note hresult =>
    have hadds := (Draft.addsNotes_addSideEffect note).annotates
    have hnoted : ((t.perform r rule action).updateDraft rule.id
        (·.addSideEffect note)).ListsEvents :=
      hperformed.updateDraft rule.id fun _ => hadds.listsEvents
    have hsuccess := Stage.success_of_execute hresult
    exact hnoted.recordApplied rule hsuccess

theorem lasting_listsEvents (r : TickRules) : Lasting r ListsEvents := by
  refine ⟨?_, ?_, fun _ _ hact h => h.act hact⟩
  · intro t entry h
    obtain ⟨g, hg, heq⟩ := t.noteIgnored_annotates entry
    exact h.map (fun _ => hg.listsEvents) (by rw [heq])
  · intro t rule source notices _ h d hd
    rcases List.mem_append.mp hd with hformer | hlast
    · exact h d hformer
    · rw [List.mem_singleton.mp hlast]
      obtain ⟨_, _, _, heq⟩ := t.opening_eq source rule
      rw [heq]
      rfl

/-- What the explanations list are the identifiers of the events told of, in order. -/
theorem ListsEvents.flatMap (h : t.ListsEvents) :
    t.drafts.flatMap (·.eventsGenerated) = t.events.map (·.id) := by
  unfold events applications
  rw [List.filterMap_flatMap, List.map_flatMap]
  refine List.flatMap_congr fun d hd => ?_
  rw [h d hd, List.map_filterMap]

/-- The names of the events told of, in order. -/
def names (t : Tick) : List String := EventBus.names (.number t.number) t.events

structure Identified (t : Tick) : Prop where
  tick : t.stage.bus.tick = .number t.number
  ids : t.events.map (·.id) = t.names.map EventBus.idOf

variable {first : Record Event}

theorem Identified.act (h : t.Identified) (hshows : Shows first t)
    (hlast : t.evaluated = ids ++ [rule.id]) (hnew : rule.id ∉ ids)
    (hact : Act r waiting source rule action t scheduled t' scheduled') : t'.Identified := by
  have hnumber := hact.number
  rcases hact.events hlast hnew with ⟨hevents, hbus, -⟩ | ⟨request, hevents, hbus, -⟩
  · refine ⟨?_, ?_⟩
    · rw [hbus, hnumber, h.tick]
    · rw [names, hnumber, hevents]
      exact h.ids
  · refine ⟨?_, ?_⟩
    · rw [hbus, hnumber, ← h.tick]
      rfl
    · rw [names, hnumber, hevents, EventBus.names_concat, List.map_append, List.map_append, h.ids,
        List.map_singleton, List.map_singleton, EventBus.id_eventOf, h.tick, hshows.spawned,
        EventBus.sourceRule_eventOf, EventBus.eventType_eventOf]
      rfl

theorem lasting_identified (r : TickRules) (first : Record Event) :
    Lasting r fun t => Shows first t ∧ t.Identified := by
  refine (lasting_shows r first).and ?_ ?_ ?_
  · intro t entry _ h
    obtain ⟨_, _, heq⟩ := t.noteIgnored_annotates entry
    have hnumber : (t.noteIgnored entry).number = t.number := by rw [heq]
    refine ⟨?_, ?_⟩
    · rw [stage_noteIgnored, hnumber, h.tick]
    · rw [names, hnumber, events_noteIgnored]
      exact h.ids
  · intro t rule source notices _ _ h
    refine ⟨h.tick, ?_⟩
    rw [names, events_opened]
    exact h.ids
  · intro _ _ _ _ _ _ _ _ _ hlast hnew hact hshows _ h
    exact h.act hshows hlast hnew hact

end Tick

end Harbormaster
