import Harbormaster.Engine.Basic

/-!
What becomes of inputs. One after the other they are tried on copies of the world as
those accepted before have left it: an input takes effect whole and is accepted, or
it is rejected with the failure that it raised and leaves the world alone. So the
rejected ones can be taken away without a difference to the world. Handlers may be
any that do nothing but look at the world they are given.
-/

namespace Harbormaster

/-- What became of an input: it was accepted, or rejected with a failure. -/
structure Trial where
  input : Input
  failure : Option Failure

namespace Trial

def accepts (trial : Trial) : Bool := trial.failure.isNone

/-- The entry of a report for an input that was rejected. -/
def rejection? (trial : Trial) : Option InputFailure :=
  trial.failure.map fun failure => ⟨trial.input.describe, failure.recorded.line⟩

@[simp] theorem rejection?_accepted (input : Input) : rejection? ⟨input, none⟩ = none := rfl

@[simp] theorem rejection?_rejected (input : Input) (failure : Failure) :
    rejection? ⟨input, some failure⟩ = some ⟨input.describe, failure.recorded.line⟩ := rfl

/-- The inputs that were accepted, in order. -/
def accepted (trials : List Trial) : List Input := (trials.filter (·.accepts)).map (·.input)

@[simp] theorem accepted_cons_accepted (input : Input) (rest : List Trial) :
    accepted (⟨input, none⟩ :: rest) = input :: accepted rest := rfl

@[simp] theorem accepted_cons_rejected (input : Input) (failure : Failure) (rest : List Trial) :
    accepted (⟨input, some failure⟩ :: rest) = accepted rest := rfl

/-- No input is rejected any more among those that were accepted. -/
theorem rejections_accepted (trials : List Trial) :
    (trials.filter (·.accepts)).filterMap rejection? = [] := by
  rw [List.filterMap_eq_nil_iff]
  intro trial htrial
  have haccepts := (List.mem_filter.mp htrial).2
  rw [rejection?, Option.isNone_iff_eq_none.mp haccepts, Option.map_none]

end Trial

namespace Engine

/-- The world that an input leads to: its writes, performed in order on a copy of the
world that it was translated against. -/
def attempt (translator : Translator) (w : World) (input : Input) : Except Failure World :=
  (translator.translate input w.stored).bind (performWrites · w.stored)

/-- Inputs tried in order, each on the world that the one before it has left: that is
the world it led to if it was accepted, and the world before it if it was not. -/
inductive Tried (translator : Translator) : World → List Trial → World → Prop where
  | done (w : World) : Tried translator w [] w
  | accepted {w w₁ w' : World} {input : Input} {rest : List Trial}
      (hattempt : attempt translator w input = .ok w₁) (hrest : Tried translator w₁ rest w') :
      Tried translator w (⟨input, none⟩ :: rest) w'
  | rejected {w w' : World} {input : Input} {failure : Failure} {rest : List Trial}
      (hattempt : attempt translator w input = .error failure)
      (hrest : Tried translator w rest w') :
      Tried translator w (⟨input, some failure⟩ :: rest) w'

variable {translator : Translator} {w w' : World} {trials : List Trial}

/-- Every list of inputs can be tried. -/
theorem exists_tried (translator : Translator) (w : World) (inputs : List Input) :
    ∃ trials w', Tried translator w trials w' ∧ trials.map (·.input) = inputs := by
  induction inputs generalizing w with
  | nil => exact ⟨[], w, .done w, rfl⟩
  | cons input rest ih =>
    cases hattempt : attempt translator w input with
    | ok w₁ =>
      obtain ⟨trials, w', htried, hinputs⟩ := ih w₁
      exact ⟨_, w', .accepted hattempt htried, congrArg (input :: ·) hinputs⟩
    | error failure =>
      obtain ⟨trials, w', htried, hinputs⟩ := ih w
      exact ⟨_, w', .rejected hattempt htried, congrArg (input :: ·) hinputs⟩

/-- Without the rejected inputs the others lead to the same world, and all of them
are accepted again. -/
theorem Tried.filter (h : Tried translator w trials w') :
    Tried translator w (trials.filter (·.accepts)) w' := by
  induction h with
  | done w => exact .done w
  | accepted hattempt _ ih => exact .accepted hattempt ih
  | rejected _ _ ih => exact ih

theorem applyInput_of_ok {o : InputsOutcome} {input : Input} {w₁ : World}
    (h : attempt translator o.world input = .ok w₁) :
    applyInput translator o input =
      { o with world := w₁, applied := o.applied ++ [input.describe] } := by
  unfold attempt at h
  simp only [applyInput, h]

theorem applyInput_of_error {o : InputsOutcome} {input : Input} {failure : Failure}
    (h : attempt translator o.world input = .error failure) :
    applyInput translator o input =
      { o with
        failures := o.failures ++ [⟨input.describe, failure.recorded.line⟩]
        notices := o.notices ++
          [.warning ("DecisionEngine: Input " ++ input.describe ++ " rejected: " ++
            failure.message)] } := by
  unfold attempt at h
  simp only [applyInput, h]

theorem applyInputs_concat (translator : Translator) (former : List Input) (last : Input)
    (w : World) : applyInputs translator (former ++ [last]) w =
      applyInput translator (applyInputs translator former w) last := by
  rw [applyInputs, List.foldl_append]
  rfl

/-- Applying inputs reports each of them as accepted or as rejected, in order, and ends
with the world that trying them ends with. -/
theorem Tried.foldl_applyInput {o : InputsOutcome} (h : Tried translator o.world trials w') :
    ∃ notices, (trials.map (·.input)).foldl (applyInput translator) o =
      { world := w'
        applied := o.applied ++ (Trial.accepted trials).map Input.describe
        failures := o.failures ++ trials.filterMap Trial.rejection?
        notices } := by
  generalize hworld : o.world = w at h
  induction h generalizing o with
  | done w =>
    cases hworld
    exact ⟨o.notices, by simp [Trial.accepted]⟩
  | @accepted w w₁ w' input rest hattempt _ ih =>
    cases hworld
    obtain ⟨notices, hfold⟩ := ih (o := applyInput translator o input)
      (by rw [applyInput_of_ok hattempt])
    refine ⟨notices, ?_⟩
    rw [List.map_cons, List.foldl_cons, hfold, applyInput_of_ok hattempt]
    simp [List.filterMap_cons_none (Trial.rejection?_accepted input)]
  | @rejected w w' input failure rest hattempt _ ih =>
    cases hworld
    obtain ⟨notices, hfold⟩ := ih (o := applyInput translator o input)
      (by rw [applyInput_of_error hattempt])
    refine ⟨notices, ?_⟩
    rw [List.map_cons, List.foldl_cons, hfold, applyInput_of_error hattempt]
    simp

/-- What the inputs of a tick come to. -/
theorem Tried.applyInputs (h : Tried translator w trials w') :
    (applyInputs translator (trials.map (·.input)) w).world = w' ∧
      (applyInputs translator (trials.map (·.input)) w).applied =
        (Trial.accepted trials).map Input.describe ∧
      (applyInputs translator (trials.map (·.input)) w).failures =
        trials.filterMap Trial.rejection? := by
  obtain ⟨notices, hfold⟩ := Tried.foldl_applyInput (o := ⟨w, [], [], []⟩) h
  unfold Engine.applyInputs
  rw [hfold]
  exact ⟨rfl, rfl, rfl⟩

end Engine

end Harbormaster
