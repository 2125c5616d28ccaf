import Harbormaster.Engine.Basic
import Harbormaster.Proofs.Action.Deeds
import Harbormaster.Proofs.World.Contents

/-!
Inputs and what they write. An input waits for its tick as a document holds it, which
is as it was handed in exactly if its parameters are solid. Handlers are trusted to
write nothing but what is plain where they were given nothing else, as those that are
built in do; then inputs leave nothing but plain items in a world of them.
-/

namespace Harbormaster

namespace Value

/-- Entries that cells may hold and that a document keeps as they are, are solid. -/
theorem isSolid_of_storedEntries_eq {entries : List (String × Value)}
    (hstorable : ∀ entry ∈ entries, entry.2.isStorable = true)
    (h : storedEntries entries = entries) : ∀ entry ∈ entries, entry.2.isSolid = true := by
  induction entries with
  | nil => exact fun entry hentry => (List.not_mem_nil hentry).elim
  | cons entry rest ih =>
    obtain ⟨name, v⟩ := entry
    have hv : v.isStorable = true := hstorable _ List.mem_cons_self
    have hform := hasForm_of_isPlain (isPlain_of_isStorable hv)
    rw [storedEntries, if_pos hform, List.cons.injEq, Prod.mk.injEq] at h
    obtain ⟨⟨-, hfirst⟩, hrest⟩ := h
    intro other hother
    rcases List.mem_cons.mp hother with rfl | hlater
    · refine isSolid_of_kept? hv ?_
      rw [kept?_of_hasForm hform, hfirst]
    · exact ih (fun entry hentry => hstorable entry (List.mem_cons_of_mem _ hentry)) hrest other
        hlater

end Value

/-- Every member of a record is plain. -/
def Record.Plain (r : Record Value) : Prop := ∀ name v, r.get? name = some v → v.isPlain = true

namespace Input

variable {i : Input}

/-- An input as it is handed in: of a named type, with values that cells may hold. -/
structure Typed (i : Input) : Prop where
  type : ∃ s, i.type = .text s
  params : i.params = .missing ∨ ∃ r, i.params = .record r
  values : ∀ entry ∈ i.parameters.entries, entry.2.isStorable = true

/-- The parameters of an input hold something everywhere, and only finite numbers. -/
def Solid (i : Input) : Prop := ∀ entry ∈ i.parameters.entries, entry.2.isSolid = true

/-- An input waits as it was handed in exactly if its numbers are finite. -/
theorem Typed.stored_eq_iff (h : i.Typed) : i.stored = i ↔ i.Solid := by
  obtain ⟨s, htype⟩ := h.type
  obtain ⟨type, params⟩ := i
  have hvalues := h.values
  cases htype
  rcases h.params with hmissing | ⟨⟨entries⟩, hrecord⟩
  · cases hmissing
    exact ⟨fun _ entry hentry => (List.not_mem_nil hentry).elim, fun _ => rfl⟩
  · cases hrecord
    constructor
    · intro heq
      have hentries : Value.storedEntries entries = entries := by
        simpa [stored, Value.stored] using heq
      exact Value.isSolid_of_storedEntries_eq hvalues hentries
    · intro hsolid
      have hentries := Value.storedEntries_of_solidEntries
        ((Value.solidEntries_eq_true_iff entries).mpr hsolid)
      simp [stored, Value.stored, hentries]

/-- The parameters of a stored input are plain. -/
theorem Typed.plain_stored (h : i.Typed) : i.stored.parameters.Plain := by
  intro name v hv
  obtain ⟨type, params⟩ := i
  have hvalues := h.values
  rcases h.params with hmissing | ⟨⟨entries⟩, hrecord⟩
  · cases hmissing
    cases hv
  · cases hrecord
    obtain ⟨held, hheld, hkept⟩ := Value.mem_storedEntries (Record.mem_of_get? hv)
    exact Value.isPlain_of_kept? (Value.isPlain_of_isStorable (hvalues _ hheld)) hkept

end Input

namespace Handler

/-- Whatever a handler writes is plain where its parameters are. -/
def Plain (handler : Handler) : Prop :=
  ∀ (params : Record Value) (w : World) (writes : List Write), params.Plain →
    handler params w = .ok writes → ∀ write ∈ writes, write.value.isPlain = true

def Relays (handler : Handler) : Prop :=
  ∀ (params : Record Value) (w : World) (writes : List Write), handler params w = .ok writes →
    ∀ write ∈ writes, write.value.isScalar = true ∨ ∃ name, params.get? name = some write.value

theorem relays_direct : Relays direct := by
  intro params w writes h write hwrite
  unfold direct at h
  split at h
  · cases h
  · cases h
  · rename_i hthere
    cases h
    cases List.mem_singleton.mp hwrite
    unfold Record.member at hthere ⊢
    cases hfound : params.get? "value" with
    | none =>
      rw [hfound] at hthere
      exact absurd rfl hthere
    | some v => exact .inr ⟨"value", hfound⟩

/-- A handler that writes one number, wherever it does so. -/
theorem relays_number {input name : String} {target : Record Value → String} :
    Relays fun params _ =>
      (number input name params).map fun n => [⟨target params, .number n⟩] := by
  intro params w writes h write hwrite
  dsimp only at h
  cases hnumber : number input name params with
  | error failure =>
    rw [hnumber] at h
    cases h
  | ok n =>
    rw [hnumber] at h
    cases h
    cases List.mem_singleton.mp hwrite
    exact .inl rfl

theorem relays_docking : Relays docking := by
  intro params w writes h write hwrite
  cases h
  rcases List.mem_cons.mp hwrite with rfl | hlast
  · exact .inl rfl
  · cases List.mem_singleton.mp hlast
    exact .inl rfl

theorem relays_emergencyStop : Relays emergencyStop := by
  intro params w writes h write hwrite
  cases h
  obtain ⟨id, -, rfl⟩ := List.mem_map.mp hwrite
  exact .inl rfl

theorem Relays.plain {handler : Handler} (h : handler.Relays) : handler.Plain := by
  intro params w writes hparams hok write hwrite
  rcases h params w writes hok write hwrite with hscalar | ⟨name, hname⟩
  · exact Value.isPlain_of_isPlainItem (Value.isPlainItem_of_isScalar hscalar)
  · exact hparams name _ hname

end Handler

namespace Translator

variable {t : Translator}

/-- Whatever the handlers of a translator write is plain where their parameters are. -/
def Plain (t : Translator) : Prop := ∀ entry ∈ t.handlers, Handler.Plain entry.2

/-- The handlers that are built in write numbers, texts and truth values, or what they
are given. -/
theorem relays_builtIn : ∀ entry ∈ builtIn.handlers, Handler.Relays entry.2 := by
  intro entry hentry
  simp only [builtIn, List.mem_cons, List.not_mem_nil, or_false] at hentry
  rcases hentry with rfl | rfl | rfl | rfl | rfl | rfl
  · exact Handler.relays_direct
  · exact Handler.relays_number
  · exact Handler.relays_number
  · exact Handler.relays_docking
  · exact Handler.relays_number
  · exact Handler.relays_emergencyStop

theorem plain_builtIn : builtIn.Plain := fun entry hentry => (relays_builtIn entry hentry).plain

/-- What an input writes is decided by the handler of its type. -/
theorem handler_of_translate {input : Input} {w : World} {writes : List Write}
    (hok : t.translate input w = .ok writes) :
    ∃ entry ∈ t.handlers, entry.2 input.parameters w = .ok writes := by
  unfold translate at hok
  split at hok
  · rename_i handler hhandler
    obtain ⟨type, -, hlookup⟩ := Option.bind_eq_some_iff.mp hhandler
    obtain ⟨_, _, hhandlers, -⟩ := List.lookup_eq_some_iff.mp hlookup
    refine ⟨(type, handler), ?_, hok⟩
    rw [hhandlers]
    exact List.mem_append_right _ List.mem_cons_self
  · cases hok

theorem Plain.of_translate (h : t.Plain) {input : Input} {w : World} {writes : List Write}
    (hinput : input.parameters.Plain) (hok : t.translate input w = .ok writes) :
    ∀ write ∈ writes, write.value.isPlain = true := by
  obtain ⟨entry, hentry, hhandler⟩ := handler_of_translate hok
  exact h entry hentry _ _ _ hinput hhandler

end Translator

namespace Engine

variable {w w' : World}

/-- What every write preserves, a list of them preserves. -/
theorem performWrites_preserves {P : World → Prop} {writes : List Write}
    (hwrite : ∀ write ∈ writes, ∀ {w w'}, P w → w.write write.path write.value = .ok w' → P w')
    (hstart : P w) (hok : performWrites writes w = .ok w') : P w' := by
  induction writes generalizing w with
  | nil =>
    cases hok
    exact hstart
  | cons write rest ih =>
    unfold performWrites at hok
    cases hfirst : w.write write.path write.value with
    | error failure =>
      rw [hfirst] at hok
      cases hok
    | ok w₁ =>
      rw [hfirst] at hok
      exact ih (fun other hother => hwrite other (List.mem_cons_of_mem _ hother))
        (hwrite write List.mem_cons_self hstart hfirst) hok

theorem madeOf_applyInput {t : Translator} {o : InputsOutcome} {input : Input} (ht : t.Plain)
    (hinput : input.parameters.Plain) (hmade : o.world.MadeOf Value.isPlainItem)
    (hdistinct : o.world.Distinct) :
    (applyInput t o input).world.MadeOf Value.isPlainItem ∧
      (applyInput t o input).world.Distinct := by
  unfold applyInput
  dsimp only
  cases hwritten : (t.translate input o.world.stored).bind (performWrites · o.world.stored) with
  | error failure => exact ⟨hmade, hdistinct⟩
  | ok world =>
    obtain ⟨writes, htranslated, hperformed⟩ := ok_of_bind hwritten
    have hvalues := ht.of_translate hinput htranslated
    refine performWrites_preserves (P := fun w => w.MadeOf Value.isPlainItem ∧ w.Distinct) ?_
      ⟨hmade.stored, hdistinct.stored⟩ hperformed
    rintro write hwrite w w' ⟨hformer, hnames⟩ hok
    exact ⟨hformer.write (Value.isMadeOf_of_isPlain (hvalues write hwrite)) hok, hnames.write hok⟩

/-- Inputs leave nothing but plain items in a world of them. -/
theorem madeOf_applyInputs {t : Translator} {inputs : List Input} (ht : t.Plain)
    (hinputs : ∀ input ∈ inputs, input.parameters.Plain) (hmade : w.MadeOf Value.isPlainItem)
    (hdistinct : w.Distinct) :
    (applyInputs t inputs w).world.MadeOf Value.isPlainItem ∧
      (applyInputs t inputs w).world.Distinct := by
  unfold applyInputs
  have hstart : (⟨w, [], [], []⟩ : InputsOutcome).world.MadeOf Value.isPlainItem ∧
      (⟨w, [], [], []⟩ : InputsOutcome).world.Distinct := ⟨hmade, hdistinct⟩
  generalize (⟨w, [], [], []⟩ : InputsOutcome) = o at hstart ⊢
  induction inputs generalizing o with
  | nil => exact hstart
  | cons input rest ih =>
    apply ih (fun other hother => hinputs other (List.mem_cons_of_mem _ hother))
    exact madeOf_applyInput ht (hinputs input List.mem_cons_self) hstart.1 hstart.2

end Engine

end Harbormaster
