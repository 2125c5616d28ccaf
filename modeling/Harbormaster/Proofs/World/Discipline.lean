import Harbormaster.Proofs.Conflict.Books
import Harbormaster.Proofs.Input.Copies
import Harbormaster.Proofs.World.Filled

/-!
What no change of a world can break. A world changes where a cell is written or taken
back, where its events or its time are replaced and where a document is made of it; what
all of these preserve is stable, and then holds after every conflict, whatever it ends in.
One such thing is the discipline of a world: agents are never added, dropped or renamed,
metrics stay finite numbers and the environment stays free of lists. Which values the
fields of agents take is left open, since these take every value.
-/

namespace Harbormaster

namespace World

/-- What every change of a world preserves. Neither events nor the time count for it. -/
structure Stable (P : World → Prop) : Prop where
  write : ∀ {w w' text value}, P w → w.write text value = .ok w' → P w'
  unset : ∀ {w w' text}, P w → w.unset text = .ok w' → P w'
  stored : ∀ {w}, P w → P w.stored
  events : ∀ {w} events, P w → P { w with events }
  timeStep : ∀ {w} timeStep, P w → P { w with timeStep }

theorem Stable.apply {P : World → Prop} (hP : Stable P) {w w' : World} {text : String}
    {value : Value} (h : P w) (hok : Ledger.apply w text value = .ok w') : P w' := by
  cases value with
  | missing => exact hP.unset h hok
  | absent | boolean | number | text | list | record | native | fallback => exact hP.write h hok

/-- Whatever a write ends in, refusals and conflicts included. -/
theorem Stable.of_end {P : World → Prop} (hP : Stable P) {l l' : Ledger} {w w' : World}
    {request : WriteRequest} {result : Except Failure WriteOutcome} (h : P w)
    (hend : Ledger.End l w request l' w' result) : P w' := by
  cases hend with
  | refused | withheld => exact h
  | opened _ _ hworld | updated _ _ hworld => exact hP.write h hworld
  | settled _ _ hworld => exact hP.apply h hworld

theorem stable_distinct : Stable Distinct :=
  ⟨Distinct.write, Distinct.unset, Distinct.stored,
    fun _ h => ⟨h.fields, h.environment, h.metrics⟩,
    fun _ h => ⟨h.fields, h.environment, h.metrics⟩⟩

end World

/-- A member that is there can be written without a change of the names. -/
theorem Record.keys_set {α : Type} {r : Record α} {name : String} {former : α}
    (h : r.get? name = some former) (value : α) : (r.set name value).keys = r.keys := by
  have hthere : r.contains name = true := by simp [contains, h]
  simp only [keys, set, hthere, if_true]
  exact map_replaceEntry name value r.entries

namespace Value

theorem list?_of_kept? {v kept : Value} (h : v.kept? = some kept) (hv : v.list? = none) :
    kept.list? = none := by
  obtain ⟨-, rfl⟩ := Option.ite_some_none_eq_some.mp h
  cases v with
  | list => cases hv
  | number n =>
    unfold stored
    split <;> rfl
  | native thing => cases thing with
    | root | method | listMethod => rfl
  | missing | absent | boolean | text | record | fallback => rfl

theorem list?_of_isScalar {v : Value} (h : v.isScalar = true) : v.list? = none := by
  cases v with
  | boolean | number | text => rfl
  | missing | absent | list | record | native | fallback => cases h

end Value

namespace World

structure Regular (w : World) : Prop where
  ids : ∀ entry ∈ w.agents.entries, entry.2.id = .text entry.1
  metrics : w.metrics.All fun v => ∃ n : Number, v = .number n ∧ n.isFinite = true

/-- A regular world with agents of the given names, in which the environment holds no list. -/
structure Disciplined (names : List String) (w : World) : Prop extends w.Regular where
  agents : w.agents.keys = names
  environment : w.environment.All fun v => v.list? = none

variable {names : List String} {w w' : World} {path : Path} {text : String} {value : Value}
  {f : String → Record Value → Record Value}

namespace Regular

/-- Altering a cell leaves the agents as they are, but for the fields of one of them. -/
theorem alterAt (h : w.Regular)
    (hmetrics : ∀ name, path = .metric name →
      (f name w.metrics).All fun v => ∃ n : Number, v = .number n ∧ n.isFinite = true)
    (hok : w.alterAt path f = .ok w') : w'.Regular := by
  cases alters_of_alterAt hok with
  | environmentField name => exact ⟨h.ids, h.metrics⟩
  | metric name => exact ⟨h.ids, hmetrics name rfl⟩
  | @agentField agent a field ha =>
    refine ⟨?_, h.metrics⟩
    intro entry hentry
    rcases Record.mem_set hentry with rfl | hold
    · exact h.ids (agent, a) (Record.mem_of_get? ha)
    · exact h.ids entry hold

theorem write (h : w.Regular) (hok : w.write text value = .ok w') : w'.Regular := by
  obtain ⟨path, -, haccepts, halter⟩ := write_eq_ok_iff.mp hok
  refine h.alterAt ?_ halter
  rintro name rfl
  cases value with
  | number n =>
    -- a number takes no place of what the record falls back on
    unfold Record.assign
    split
    · exact h.metrics
    · exact h.metrics.set ⟨n, rfl, haccepts⟩ name
  | missing | absent | boolean | text | list | record | native | fallback => cases haccepts

theorem unset (h : w.Regular) (hok : w.unset text = .ok w') : w'.Regular := by
  obtain ⟨path, -, hat⟩ := unset_eq_ok_iff.mp hok
  exact h.alterAt (fun name _ => h.metrics.drop name) hat

theorem stored (h : w.Regular) : w.stored.Regular := by
  refine ⟨?_, ?_⟩
  · intro entry hentry
    obtain ⟨a, ha, rfl⟩ := List.mem_map.mp hentry
    simp only [Agent.stored, h.ids a ha, Value.stored]
  · rintro ⟨name, kept⟩ hentry
    obtain ⟨v, hv, hkept⟩ := Value.mem_storedEntries hentry
    obtain ⟨n, rfl, hfinite⟩ := h.metrics _ hv
    cases hkept
    exact ⟨n, by simp [Value.stored, hfinite], hfinite⟩

end Regular

theorem stable_regular : Stable Regular :=
  ⟨Regular.write, Regular.unset, Regular.stored, fun _ h => ⟨h.ids, h.metrics⟩,
    fun _ h => ⟨h.ids, h.metrics⟩⟩

namespace Disciplined

theorem alterAt (h : w.Disciplined names)
    (henvironment : ∀ name, path = .environmentField name →
      (f name w.environment).All fun v => v.list? = none)
    (hregular : w'.Regular) (hok : w.alterAt path f = .ok w') : w'.Disciplined names := by
  cases alters_of_alterAt hok with
  | environmentField name => exact ⟨hregular, h.agents, henvironment name rfl⟩
  | metric name => exact ⟨hregular, h.agents, h.environment⟩
  | @agentField agent a field ha =>
    exact ⟨hregular, (Record.keys_set ha _).trans h.agents, h.environment⟩

theorem write (h : w.Disciplined names) (hok : w.write text value = .ok w') :
    w'.Disciplined names := by
  obtain ⟨path, -, haccepts, halter⟩ := write_eq_ok_iff.mp hok
  refine h.alterAt ?_ (h.toRegular.write hok) halter
  rintro name rfl
  exact h.environment.assign (Value.list?_of_isScalar haccepts) rfl name

theorem unset (h : w.Disciplined names) (hok : w.unset text = .ok w') : w'.Disciplined names := by
  obtain ⟨path, -, hat⟩ := unset_eq_ok_iff.mp hok
  exact h.alterAt (fun name _ => h.environment.drop name) (h.toRegular.unset hok) hat

theorem stored (h : w.Disciplined names) : w.stored.Disciplined names := by
  refine ⟨h.toRegular.stored, ?_, ?_⟩
  · have hkeys : w.stored.agents.keys = w.agents.keys := by
      simp [World.stored, Record.keys, Record.map, Function.comp_def]
    rw [hkeys, h.agents]
  · rintro ⟨name, kept⟩ hentry
    obtain ⟨v, hv, hkept⟩ := Value.mem_storedEntries hentry
    exact Value.list?_of_kept? hkept (h.environment _ hv)

end Disciplined

theorem stable_disciplined (names : List String) : Stable (Disciplined names) :=
  ⟨Disciplined.write, Disciplined.unset, Disciplined.stored,
    fun _ h => ⟨⟨h.ids, h.metrics⟩, h.agents, h.environment⟩,
    fun _ h => ⟨⟨h.ids, h.metrics⟩, h.agents, h.environment⟩⟩

/-- A world that a history may begin with needs no more than finite metrics to be regular. -/
theorem regular_of_fault? (h : w.fault? = none)
    (hmetrics : w.metrics.All fun v => v.isFinite = true) : w.Regular := by
  obtain ⟨hagents, hrest⟩ := Option.or_eq_none_iff.mp h
  have hnumbers := (Option.or_eq_none_iff.mp hrest).1
  rw [List.findSome?_eq_none_iff] at hagents hnumbers
  refine ⟨?_, ?_⟩
  · intro entry hentry
    have hfault := hagents entry hentry
    unfold agentFault? at hfault
    split at hfault
    · rename_i hid
      exact Value.text?_eq_some_iff.mp hid
    · cases hfault
  · rintro ⟨name, v⟩ hentry
    have hfault := hnumbers _ hentry
    have hfinite := hmetrics _ hentry
    cases v with
    | number n => exact ⟨n, rfl, hfinite⟩
    | missing | absent | boolean | text | list | record | native | fallback => cases hfault

end World

end Harbormaster
