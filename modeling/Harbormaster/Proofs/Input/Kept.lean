import Mathlib.Data.List.Induction
import Harbormaster.Proofs.Input.Copies
import Harbormaster.Proofs.Input.Trials
import Harbormaster.Proofs.World.Filled

/-!
Worlds that a document keeps as they are. Whatever has been through a document once is
kept by the next one, the marker of nothing included, and stays so as long as nothing is
written to it but what a document keeps, and nothing that a record falls back on; so inputs
find a world unchanged by the copies that are made for them. Handlers are trusted here to
write what they are given or what documents keep, as those that are built in do.
-/

namespace Harbormaster

theorem Value.marked_of_hasForm {v : Value} (h : v.hasForm = true) : v.marked = v := by
  cases v with
  | missing => cases h
  | absent | boolean | number | text | list | record | native | fallback => rfl

/-- What is left of a value by a document is kept by the next one. -/
theorem Value.kept?_of_kept? {v kept : Value} (h : v.kept? = some kept) :
    kept.kept? = some kept := by
  obtain ⟨hform, rfl⟩ := Option.ite_some_none_eq_some.mp h
  rw [kept?_of_hasForm (hasForm_stored hform), stored_stored]

/-- What a document puts into the place of an item of a list it keeps there. -/
theorem Value.kept?_marked_stored (v : Value) :
    v.stored.marked.kept? = some v.stored.marked := by
  cases hform : v.hasForm with
  | true =>
    have hkept : v.kept? = some v.stored := kept?_of_hasForm hform
    have hmarked : v.stored.marked = v.stored := marked_of_hasForm (hasForm_stored hform)
    rw [hmarked, kept?_of_kept? hkept]
  | false =>
    have hmarked : v.stored.marked = absent := by
      rw [stored_of_not_hasForm hform]
      rfl
    rw [hmarked]
    rfl

theorem Value.mem_storedItems {items : List Value} {item : Value} (h : item ∈ storedItems items) :
    ∃ v ∈ items, item = v.stored.marked := by
  induction items with
  | nil => cases h
  | cons v rest ih =>
    rcases List.mem_cons.mp h with hfirst | hrest
    · exact ⟨v, List.mem_cons_self, hfirst⟩
    · obtain ⟨other, hother, heq⟩ := ih hrest
      exact ⟨other, List.mem_cons_of_mem _ hother, heq⟩

namespace Record

variable {r : Record Value}

def Kept (r : Record Value) : Prop := r.All fun v => v.kept? = some v

theorem Kept.stored (h : r.Kept) : r.stored = r := by
  obtain ⟨entries⟩ := r
  have hentries : Value.storedEntries entries = entries := by
    induction entries with
    | nil => rfl
    | cons entry rest ih =>
      obtain ⟨name, v⟩ := entry
      have hfirst : v.kept? = some v := h (name, v) List.mem_cons_self
      have hrest := ih fun other hother => h other (List.mem_cons_of_mem _ hother)
      rw [Value.storedEntries_cons, hfirst, hrest]
      rfl
  exact congrArg Record.mk hentries

/-- A value that no record can fall back on can be written under any name, and any value that
is kept under a name of its own. -/
theorem Kept.assign {name : String} {value : Value} (h : r.Kept)
    (hvalue : value.kept? = some value)
    (hplace : value.isScalar = true ∨ name ≠ baseName) : (r.assign name value).Kept := by
  rcases hplace with hscalar | hname
  · have hplain : (value.isObject || value.isAbsent) = false := by
      cases value with
      | boolean | number | text => rfl
      | missing | absent | list | record | native | fallback => cases hscalar
    unfold Record.assign
    split
    · rw [hplain]
      exact h
    · exact All.set h hvalue name
  · rw [assign_of_ne hname]
    exact All.set h hvalue name

theorem kept_stored (r : Record Value) : r.stored.Kept := by
  rintro ⟨name, kept⟩ hentry
  obtain ⟨v, -, hkept⟩ := Value.mem_storedEntries hentry
  exact Value.kept?_of_kept? hkept

theorem map_eq_self {α : Type} {f : α → α} {r : Record α} (h : r.All fun a => f a = a) :
    r.map f = r := by
  have hentries : r.entries.map (fun m => (m.1, f m.2)) = r.entries := by
    refine (List.map_congr_left fun m hm => ?_).trans (List.map_id _)
    rw [h m hm]
    rfl
  exact congrArg Record.mk hentries

end Record

theorem Agent.stored_stored (a : Agent) : a.stored.stored = a.stored := by
  simp only [Agent.stored, Value.stored_stored, Record.stored_stored]

structure World.Kept (w : World) : Prop where
  agents : w.agents.All fun a => a.stored = a ∧ a.fields.Kept
  environment : w.environment.Kept
  metrics : w.metrics.Kept
  timeStep : w.timeStep.stored = w.timeStep
  events : w.events.map Event.stored = w.events
  others : w.others.stored = w.others

namespace World

variable {w w' : World} {text : String} {value : Value}

theorem Kept.stored (h : w.Kept) : w.stored = w := by
  have hagents : w.agents.map Agent.stored = w.agents :=
    Record.map_eq_self fun entry hentry => (h.agents entry hentry).1
  unfold World.stored
  rw [hagents, h.environment.stored, h.metrics.stored, h.timeStep, h.events, h.others]

theorem kept_stored (w : World) : w.stored.Kept := by
  have hwhole := w.stored_stored
  refine ⟨?_, Record.kept_stored _, Record.kept_stored _, Value.stored_stored _,
    congrArg World.events hwhole, Record.stored_stored _⟩
  intro entry hentry
  obtain ⟨a, -, rfl⟩ := List.mem_map.mp hentry
  exact ⟨a.2.stored_stored, Record.kept_stored _⟩

theorem Kept.write (h : w.Kept) (hvalue : value.kept? = some value)
    (hplace : value.isScalar = true ∨ Path.SparesBase text) (hok : w.write text value = .ok w') :
    w'.Kept := by
  obtain ⟨path, hparse, -, halter⟩ := write_eq_ok_iff.mp hok
  have hassign : ∀ {r : Record Value}, r.Kept → (r.assign path.name value).Kept :=
    fun hr => hr.assign hvalue (hplace.imp_right fun hspares => hspares path hparse)
  cases alters_of_alterAt halter with
  | environmentField name =>
    exact ⟨h.agents, hassign h.environment, h.metrics, h.timeStep, h.events, h.others⟩
  | metric name =>
    exact ⟨h.agents, h.environment, hassign h.metrics, h.timeStep, h.events, h.others⟩
  | @agentField agent a field ha =>
    obtain ⟨hsame, hfields⟩ := h.agents.get? ha
    have hnow : (a.fields.assign field value).Kept := hassign hfields
    refine ⟨h.agents.set ⟨?_, hnow⟩ agent, h.environment, h.metrics, h.timeStep, h.events,
      h.others⟩
    have hid : a.id.stored = a.id := congrArg Agent.id hsame
    have hothers : a.others.stored = a.others := congrArg Agent.others hsame
    simp only [Agent.stored, hid, hothers, hnow.stored]

end World

namespace Handler

structure Harmless (params : Record Value) : Prop where
  kept : params.Kept
  spares : ∀ name text, params.get? name = some (.text text) → Path.SparesBase text

structure KeptThere (write : Write) : Prop where
  value : write.value.kept? = some write.value
  place : write.value.isScalar = true ∨ Path.SparesBase write.path

/-- Whatever a handler writes a document keeps, as long as its parameters are harmless. -/
def Keeps (handler : Handler) : Prop :=
  ∀ (params : Record Value) (w : World) (writes : List Write), Harmless params →
    handler params w = .ok writes → ∀ write ∈ writes, KeptThere write

theorem keeps_direct : Keeps direct := by
  intro params w writes hparams h write hwrite
  unfold direct at h
  split at h
  · cases h
  · cases h
  · rename_i path hpath hthere
    cases h
    cases List.mem_singleton.mp hwrite
    refine ⟨?_, .inr ?_⟩
    · unfold Record.member at hthere ⊢
      cases hfound : params.get? "value" with
      | none =>
        rw [hfound] at hthere
        exact absurd rfl hthere
      | some v => exact hparams.kept.get? hfound
    · have htext := Value.text?_eq_some_iff.mp (Option.filter_eq_some_iff.mp hpath).1
      unfold Record.member at htext
      cases hfound : params.get? "path" with
      | none =>
        rw [hfound] at htext
        cases htext
      | some v =>
        rw [hfound] at htext
        exact hparams.spares "path" path (hfound.trans (congrArg some htext))

theorem isFinite_of_number {input name : String} {params : Record Value} {n : Number}
    (h : number input name params = .ok n) : n.isFinite = true := by
  unfold number at h
  dsimp only at h
  split at h
  · split at h
    · rename_i hfinite
      cases h
      exact hfinite
    · cases h
  · cases h

/-- A handler that writes one number, wherever it does so. -/
theorem keeps_number {input name : String} {target : Record Value → String} :
    Keeps fun params _ =>
      (number input name params).map fun n => [⟨target params, .number n⟩] := by
  intro params w writes _ h write hwrite
  dsimp only at h
  cases hnumber : number input name params with
  | error failure =>
    rw [hnumber] at h
    cases h
  | ok n =>
    rw [hnumber] at h
    cases h
    cases List.mem_singleton.mp hwrite
    exact ⟨Value.kept?_of_isSolid (isFinite_of_number hnumber), .inl rfl⟩

theorem keeps_docking : Keeps docking := by
  intro params w writes _ h write hwrite
  cases h
  rcases List.mem_cons.mp hwrite with rfl | hlast
  · exact ⟨rfl, .inl rfl⟩
  · cases List.mem_singleton.mp hlast
    exact ⟨rfl, .inl rfl⟩

theorem keeps_emergencyStop : Keeps emergencyStop := by
  intro params w writes _ h write hwrite
  cases h
  obtain ⟨id, -, rfl⟩ := List.mem_map.mp hwrite
  exact ⟨rfl, .inl rfl⟩

end Handler

namespace Translator

/-- What the handlers of a translator write a document keeps, if parameters are harmless. -/
def Keeps (t : Translator) : Prop := ∀ entry ∈ t.handlers, Handler.Keeps entry.2

theorem keeps_builtIn : builtIn.Keeps := by
  intro entry hentry
  simp only [builtIn, List.mem_cons, List.not_mem_nil, or_false] at hentry
  rcases hentry with rfl | rfl | rfl | rfl | rfl | rfl
  · exact Handler.keeps_direct
  · exact Handler.keeps_number
  · exact Handler.keeps_number
  · exact Handler.keeps_docking
  · exact Handler.keeps_number
  · exact Handler.keeps_emergencyStop

end Translator

/-- The members of what a document holds are kept, also where it is a list or a text. -/
theorem Value.kept_members_stored (v : Value) : v.stored.members.Kept := by
  cases v with
  | missing | absent | boolean | fallback => exact fun _ hentry => (List.not_mem_nil hentry).elim
  | native thing =>
    cases thing with
    | root | method | listMethod => exact fun _ hentry => (List.not_mem_nil hentry).elim
  | number n =>
    unfold stored
    split
    · exact fun _ hentry => (List.not_mem_nil hentry).elim
    · exact fun _ hentry => (List.not_mem_nil hentry).elim
  | record r => exact r.kept_stored
  | text s =>
    intro entry hentry
    obtain ⟨place, -, rfl⟩ := List.mem_mapIdx.mp (Record.mem_ofList hentry)
    rfl
  | list items =>
    intro entry hentry
    obtain ⟨place, hplace, rfl⟩ := List.mem_mapIdx.mp (Record.mem_ofList hentry)
    obtain ⟨v, -, hv⟩ := mem_storedItems (List.getElem_mem hplace)
    dsimp only
    rw [hv]
    exact v.kept?_marked_stored

/-- The parameters of an input that waits are kept. -/
theorem Input.kept_stored (i : Input) : i.stored.parameters.Kept := i.params.kept_members_stored

namespace Engine

variable {t : Translator}

theorem kept_applyInput {o : InputsOutcome} {input : Input} (ht : t.Keeps)
    (hinput : Handler.Harmless input.parameters) (hw : o.world.Kept) :
    (applyInput t o input).world.Kept := by
  unfold applyInput
  dsimp only
  cases hwritten : (t.translate input o.world.stored).bind (performWrites · o.world.stored) with
  | error failure => exact hw
  | ok world =>
    obtain ⟨writes, htranslated, hperformed⟩ := ok_of_bind hwritten
    obtain ⟨entry, hentry, hhandler⟩ := Translator.handler_of_translate htranslated
    have hvalues := ht entry hentry _ _ _ hinput hhandler
    refine performWrites_preserves ?_ (World.kept_stored _) hperformed
    intro write hwrite _ _ hformer
    exact hformer.write (hvalues write hwrite).value (hvalues write hwrite).place

/-- Inputs with harmless parameters leave a kept world kept. -/
theorem kept_applyInputs {inputs : List Input} {w : World} (ht : t.Keeps)
    (hinputs : ∀ input ∈ inputs, Handler.Harmless input.parameters) (hw : w.Kept) :
    (applyInputs t inputs w).world.Kept := by
  induction inputs using List.reverseRecOn with
  | nil => exact hw
  | append_singleton former last ih =>
    rw [applyInputs_concat]
    exact kept_applyInput ht (hinputs last (List.mem_append_right _ List.mem_cons_self))
      (ih fun input hinput => hinputs input (List.mem_append_left _ hinput))

end Engine

end Harbormaster
