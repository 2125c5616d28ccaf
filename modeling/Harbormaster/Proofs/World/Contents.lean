import Harbormaster.Expression.Operand
import Harbormaster.Proofs.Value.Contents
import Harbormaster.Proofs.World.Texts

/-!
Worlds made of items of a kind. What is read of such a world is made of these items, or it is
the marker of something that is not there, and so is what an operand stands for in it,
whether it is a literal, a path or an expression; and what is made of them can be written to
it and unset in it. A document may turn items into the marker of nothing, but keeps a world
made of plain ones. Of an event everything counts, since other events may fall back on it.
-/

namespace Harbormaster

theorem Record.Distinct.stored {r : Record Value} (h : r.Distinct) : r.stored.Distinct := by
  obtain ⟨entries⟩ := r
  have hsub : ∀ entries : List (String × Value),
      ((Value.storedEntries entries).map (·.1)).Sublist (entries.map (·.1)) := by
    intro entries
    induction entries with
    | nil => exact .slnil
    | cons entry rest ih =>
      obtain ⟨name, v⟩ := entry
      rw [Value.storedEntries]
      split
      · exact ih.cons_cons name
      · exact ih.cons name
  exact h.sublist (hsub entries)

theorem Record.stored_stored (r : Record Value) : r.stored.stored = r.stored :=
  congrArg Record.mk (Value.storedEntries_storedEntries r.entries)

/-- A world made of items of a kind. -/
structure World.MadeOf (item : Value → Bool) (w : World) : Prop where
  fields : w.agents.All fun a => a.fields.MadeOf item
  environment : w.environment.MadeOf item
  metrics : w.metrics.MadeOf item
  events : w.events.All fun e => e.members.MadeOf item

section Reading

variable {item : Value → Bool} {w : World} {path : Path} {text name : String}
  {v value event : Value}

/-- What is read below an event is made of what the event is made of. -/
theorem Value.isMadeOf_readEvent (hitem : Items item) (hevent : event.isMadeOf item = true)
    (h : event.readEvent name = .ok v) : v.isMadeOf item = true ∨ v = absent := by
  have hgives : ∀ {name : String}, ((event.property? name).getD missing).isMadeOf item = true := by
    intro name
    cases hfound : event.property? name with
    | none => rfl
    | some found => exact isMadeOf_property? hitem hevent hfound
  unfold readEvent at h
  split at h
  · cases h
    exact .inl hgives
  · dsimp only at h
    split at h
    · cases h
      cases hfound : ((event.property? "payload").getD missing).property? name with
      | none => exact .inr rfl
      | some found => exact .inl (isMadeOf_property? hitem hgives hfound)
    · cases h

namespace World.MadeOf

theorem event? (hitem : Value.Items item) (h : w.MadeOf item) {eventType : String}
    (hevent : w.event? eventType = some event) : event.isMadeOf item = true := by
  have hrecord : ∀ {type : String} {e : Event}, w.events.get? type = some e →
      (Value.record e.members).isMadeOf item = true :=
    fun he => Value.isMadeOf_record_iff.mpr (h.events.get? he)
  have hfound := (Option.filter_eq_some_iff.mp hevent).1
  split at hfound
  · rename_i own _ hown
    cases hfound
    exact hrecord hown
  · rename_i base _ hbase
    exact Value.isMadeOf_property? hitem (hrecord hbase) hfound
  · exact Value.isMadeOf_shared? hfound

theorem of_readAt (hitem : Value.Items item) (h : w.MadeOf item)
    (hread : w.readAt path = .ok v) : v.isMadeOf item = true ∨ v = .absent := by
  unfold readAt at hread
  dsimp only at hread
  split at hread
  · split at hread
    · cases hread
    · rename_i a ha
      split at hread
      · cases hread
      · rename_i hfound
        cases hread
        exact .inl (Record.MadeOf.find? hitem (h.fields.get? ha) hfound)
  · split at hread
    · cases hread
    · rename_i hfound
      cases hread
      exact .inl (h.environment.find? hitem hfound)
  · split at hread
    · cases hread
    · rename_i hfound
      cases hread
      exact .inl (h.metrics.find? hitem hfound)
  · split at hread
    · cases hread
      exact .inr rfl
    · cases hread
      exact .inl (Value.isMadeOf_of_item hitem (hitem.scalar rfl))
    · rename_i hevent
      exact Value.isMadeOf_readEvent hitem (h.event? hitem hevent) hread

/-- What a cell shows, be it nothing. -/
theorem of_peek (hitem : Value.Items item) (h : w.MadeOf item) (hpeek : w.peek text = .ok v) :
    v.isMadeOf item = true := by
  obtain ⟨path, -, hat⟩ := (require_bind_eq_ok_iff _ _ _).mp hpeek
  obtain ⟨r, hr, rfl⟩ := peekAt_eq_ok_iff.mp hat
  have hmade : r.MadeOf item := by
    cases path with
    | event => cases hr
    | environmentField =>
      cases hr
      exact h.environment
    | metric =>
      cases hr
      exact h.metrics
    | agentField agent field =>
      obtain ⟨a, ha, rfl⟩ := Option.map_eq_some_iff.mp hr
      exact h.fields.get? ha
  exact hmade.answer hitem path.name

/-- An operand stands for itself, for a number that is worked out or for what is read. -/
theorem of_resolve (hitem : Value.Items item) (h : w.MadeOf item) {operand : Value}
    (hoperand : operand.isStorable = true) (hok : w.resolve operand = .ok v) :
    v.isMadeOf item = true ∨ v = .absent := by
  have hself := Value.isMadeOf_of_isStorable hitem hoperand
  unfold World.resolve at hok
  split at hok
  · split at hok
    · rename_i body _
      cases hvalue : Expression.evaluate (Text.trim body) w with
      | error failure =>
        rw [hvalue] at hok
        cases hok
      | ok n =>
        rw [hvalue] at hok
        cases hok
        exact .inl (Value.isMadeOf_of_item hitem (hitem.scalar rfl))
    · split at hok
      · obtain ⟨path, -, hread⟩ := (require_bind_eq_ok_iff _ _ _).mp hok
        exact h.of_readAt hitem hread
      · cases hok
        exact .inl hself
  · cases hok
    exact .inl hself

end World.MadeOf

end Reading

namespace World

variable {item : Value → Bool} {w w' : World} {path : Path} {text : String} {value : Value}
  {f : String → Record Value → Record Value}

theorem MadeOf.alterAt (h : w.MadeOf item) (hf : ∀ name r, r.MadeOf item → (f name r).MadeOf item)
    (hok : w.alterAt path f = .ok w') : w'.MadeOf item := by
  cases alters_of_alterAt hok with
  | environmentField field => exact ⟨h.fields, hf field _ h.environment, h.metrics, h.events⟩
  | metric name => exact ⟨h.fields, h.environment, hf name _ h.metrics, h.events⟩
  | @agentField agent a field ha =>
    exact ⟨h.fields.set (hf field _ (h.fields.get? ha)) agent, h.environment, h.metrics, h.events⟩

theorem MadeOf.write (h : w.MadeOf item) (hvalue : value.isMadeOf item = true)
    (hok : w.write text value = .ok w') : w'.MadeOf item := by
  obtain ⟨path, -, -, halter⟩ := write_eq_ok_iff.mp hok
  exact h.alterAt (fun name r hr => hr.assign hvalue name) halter

theorem MadeOf.unset (h : w.MadeOf item) (hok : w.unset text = .ok w') : w'.MadeOf item := by
  obtain ⟨path, -, hat⟩ := unset_eq_ok_iff.mp hok
  exact h.alterAt (fun name r hr => Record.All.drop hr name) hat

theorem MadeOf.stored (h : w.MadeOf Value.isPlainItem) : w.stored.MadeOf Value.isPlainItem := by
  refine ⟨?_, h.environment.stored, h.metrics.stored, ?_⟩
  · intro entry hentry
    obtain ⟨a, ha, rfl⟩ := List.mem_map.mp hentry
    exact Record.MadeOf.stored (h.fields a ha)
  · intro entry hentry
    obtain ⟨e, he, rfl⟩ := List.mem_map.mp hentry
    exact Record.MadeOf.stored (h.events e he)

/-- Events are no cells. -/
theorem events_of_alterAt (hok : w.alterAt path f = .ok w') : w'.events = w.events := by
  cases alters_of_alterAt hok with
  | environmentField | metric | agentField => rfl

theorem events_of_write (hok : w.write text value = .ok w') : w'.events = w.events := by
  obtain ⟨path, -, -, halter⟩ := write_eq_ok_iff.mp hok
  exact events_of_alterAt halter

theorem events_of_unset (hok : w.unset text = .ok w') : w'.events = w.events := by
  obtain ⟨path, -, hat⟩ := unset_eq_ok_iff.mp hok
  exact events_of_alterAt hat

theorem Distinct.stored (h : w.Distinct) : w.stored.Distinct := by
  obtain ⟨hfields, henvironment, hmetrics⟩ :=
    containers_of_stored (fun r hr => hr.stored) h.fields h.environment h.metrics
  exact ⟨hfields, henvironment, hmetrics⟩

theorem stored_stored (w : World) : w.stored.stored = w.stored := by
  have hagent : ∀ a : Agent, a.stored.stored = a.stored := by
    intro a
    simp only [Agent.stored, Value.stored_stored, Record.stored_stored]
  have hevent : ∀ e : Event, e.stored.stored = e.stored := by
    intro e
    simp only [Event.stored, Record.stored_stored]
  have hmap : ∀ {α : Type} (f : α → α), (∀ a, f (f a) = f a) → ∀ r : Record α,
      (r.map f).map f = r.map f := by
    intro α f hf r
    simp only [Record.map, List.map_map, Function.comp_def, hf]
  simp only [World.stored, Value.stored_stored, Record.stored_stored, hmap _ hagent, hmap _ hevent]

end World

namespace Ledger

variable {item : Value → Bool} {w w' : World} {text : String} {value : Value}

theorem events_of_apply (hok : apply w text value = .ok w') : w'.events = w.events := by
  rcases write_or_unset_of_apply hok with hwrite | ⟨-, hunset⟩
  · exact World.events_of_write hwrite
  · exact World.events_of_unset hunset

theorem madeOf_of_apply (h : w.MadeOf item) (hvalue : value.isMadeOf item = true)
    (hok : apply w text value = .ok w') : w'.MadeOf item := by
  rcases write_or_unset_of_apply hok with hwrite | ⟨-, hunset⟩
  · exact h.write hvalue hwrite
  · exact h.unset hunset

end Ledger

end Harbormaster
