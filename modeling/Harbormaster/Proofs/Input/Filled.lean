import Mathlib.Data.List.Induction
import Harbormaster.Proofs.Input.Copies
import Harbormaster.Proofs.Input.Trials
import Harbormaster.Proofs.World.Filled

/-!
Inputs write scalars and lists of them. Between two inputs of a tick the world is copied as a
document, so that the numbers have to be finite there as well. That a handler writes nothing
but what cells may hold is taken from what handlers are meant to do; those that are built in
do no more than that.
-/

namespace Harbormaster

namespace Handler

/-- Whatever a handler writes is something where its parameters are. -/
def Filled (handler : Handler) : Prop :=
  ∀ (params : Record Value) (w : World) (writes : List Write), params.Filled →
    handler params w = .ok writes → ∀ write ∈ writes, write.value.isStorable = true

theorem Relays.filled {handler : Handler} (h : handler.Relays) : handler.Filled := by
  intro params w writes hparams hok write hwrite
  rcases h params w writes hok write hwrite with hscalar | ⟨name, hname⟩
  · cases hvalue : write.value with
    | boolean | number | text => rfl
    | missing | absent | list | record | native | fallback =>
      rw [hvalue] at hscalar
      cases hscalar
  · exact hparams.get? hname

end Handler

namespace Translator

variable {t : Translator}

/-- Whatever the handlers of a translator write is something where their parameters are. -/
def Filled (t : Translator) : Prop := ∀ entry ∈ t.handlers, Handler.Filled entry.2

theorem filled_builtIn : builtIn.Filled := fun entry hentry => (relays_builtIn entry hentry).filled

theorem Filled.of_translate (h : t.Filled) {input : Input} {w : World} {writes : List Write}
    (hinput : input.parameters.Filled) (hok : t.translate input w = .ok writes) :
    ∀ write ∈ writes, write.value.isStorable = true := by
  obtain ⟨entry, hentry, hhandler⟩ := handler_of_translate hok
  exact h entry hentry _ _ _ hinput hhandler

end Translator

namespace Engine

variable {w : World} {t : Translator}

theorem scalars_applyInput {o : InputsOutcome} {input : Input} (ht : t.Filled)
    (hinput : input.parameters.Filled) (hw : o.world.MadeOf Value.isScalar)
    (hfinite : o.world.Finite) : (applyInput t o input).world.MadeOf Value.isScalar := by
  unfold applyInput
  dsimp only
  cases hwritten : (t.translate input o.world.stored).bind (performWrites · o.world.stored) with
  | error failure => exact hw
  | ok world =>
    obtain ⟨writes, htranslated, hperformed⟩ := ok_of_bind hwritten
    have hvalues := ht.of_translate hinput htranslated
    refine performWrites_preserves ?_ (hw.stored_of_finite hfinite) hperformed
    intro write hwrite _ _ hformer
    exact hformer.write (Value.isMadeOf_of_isStorable Value.items_isScalar (hvalues write hwrite))

/-- Inputs leave a world of scalars if the numbers are finite wherever it is copied. -/
theorem scalars_applyInputs {inputs : List Input} (ht : t.Filled)
    (hinputs : ∀ input ∈ inputs, input.parameters.Filled) (hw : w.MadeOf Value.isScalar)
    (hfinite : ∀ former, former <+: inputs → (applyInputs t former w).world.Finite) :
    (applyInputs t inputs w).world.MadeOf Value.isScalar := by
  induction inputs using List.reverseRecOn with
  | nil => exact hw
  | append_singleton former last ih =>
    have hformer : (applyInputs t former w).world.MadeOf Value.isScalar := by
      refine ih (fun input hinput => hinputs input (List.mem_append_left _ hinput)) ?_
      exact fun earlier hearlier => hfinite earlier (hearlier.trans (List.prefix_append _ _))
    rw [applyInputs_concat]
    exact scalars_applyInput ht (hinputs last (List.mem_append_right _ List.mem_cons_self)) hformer
      (hfinite former (List.prefix_append _ _))

end Engine

end Harbormaster
