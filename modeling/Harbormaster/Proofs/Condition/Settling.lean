import Mathlib.Data.List.Forall2
import Harbormaster.Condition.Evaluation

/-!
Conditions that settle an outcome. A list of conditions is evaluated to its end, for the sake
of the explanation, and yet decided as if evaluation had gone from left to right and stopped
where nothing could change the outcome any more. Only a condition that fails tells the two
apart: there the one who stops may not get as far, but a list of which any condition fails is
never let through.
-/

namespace Harbormaster

variable {conditions others : List Condition} {logic : Logic} {w : World}

namespace Condition

/-- What a condition comes to: its sides are resolved, first the left one, and then
compared. -/
def check (c : Condition) (w : World) : Except Failure (Option Bool) := do
  let leftValue ← w.resolve c.left
  let rightValue ← w.resolve c.right
  c.compare leftValue rightValue

def failure? (c : Condition) (w : World) : Option Failure :=
  match c.check w with
  | .ok _ => none
  | .error failure => some failure

/-- The failures that a list of conditions raises, in order. -/
def failures (conditions : List Condition) (w : World) : List Failure :=
  conditions.filterMap (·.failure? w)

structure Records (c : Condition) (w : World) (v : Evaluation) : Prop where
  condition : v.condition = c
  result : v.result = (c.check w).toOption.getD (some false)
  failure : v.failure = (c.failure? w).map Failure.recorded

/-- An evaluation records what its condition comes to; a condition that fails does not hold. -/
theorem records_evaluate (c : Condition) (w : World) : c.Records w (c.evaluate w) := by
  suffices h : (c.evaluate w).condition = c ∧
      (c.evaluate w).result = (c.check w).toOption.getD (some false) ∧
      (c.evaluate w).failure = (c.failure? w).map Failure.recorded from ⟨h.1, h.2.1, h.2.2⟩
  unfold evaluate failure? check
  cases w.resolve c.left with
  | error failure => exact ⟨rfl, rfl, rfl⟩
  | ok leftValue =>
    cases w.resolve c.right with
    | error failure => exact ⟨rfl, rfl, rfl⟩
    | ok rightValue =>
      simp only [bind, Except.bind]
      cases c.compare leftValue rightValue with
      | error failure => exact ⟨rfl, rfl, rfl⟩
      | ok result => exact ⟨rfl, rfl, rfl⟩

/-- A condition fails exactly if a failure is recorded. -/
theorem isSome_failure_evaluate (c : Condition) (w : World) :
    (c.evaluate w).failure.isSome = true ↔ ∃ failure, c.check w = .error failure := by
  rw [(c.records_evaluate w).failure, Option.isSome_map, failure?]
  cases c.check w with
  | ok result => simp
  | error failure => simp

end Condition

/-- Evaluates conditions from the left until one of them settles the outcome, and tells the
outcome and the place of that condition, which is counted from `place` on. -/
def settle (logic : Logic) (w : World) : List Condition → Nat → Except Failure (Bool × Option Nat)
  | [], _ => .ok (!logic.settling, none)
  | c :: rest, place => do
    if (← c.check w) = some logic.settling then .ok (logic.settling, some place)
    else settle logic w rest (place + 1)

/-- Evaluates no more of a list of conditions than it takes. An empty list holds. -/
def settleConditions (conditions : List Condition) (logic : Logic) (w : World) :
    Except Failure (Bool × Option Nat) :=
  if conditions.isEmpty then .ok (true, none) else settle logic w conditions 0

section Settling

/-- Who goes to the end finds the first result that settles the outcome at the place where the
other one stops. -/
theorem settle_eq (h : ∀ c ∈ conditions, ∃ result, c.check w = .ok result) (place : Nat) :
    let stop := (conditions.map (·.evaluate w)).findIdx? (·.result == some logic.settling)
    settle logic w conditions place =
      .ok (stop.isSome == logic.settling, stop.map (place + ·)) := by
  induction conditions generalizing place with
  | nil => simp [settle]
  | cons c rest ih =>
    obtain ⟨⟨result, hresult⟩, hrest⟩ := List.forall_mem_cons.mp h
    have hrecorded : (c.evaluate w).result = result := by
      rw [(c.records_evaluate w).result, hresult]
      rfl
    rw [List.map_cons, List.findIdx?_cons, settle, hresult, hrecorded]
    by_cases hsettles : result = some logic.settling
    · simp [hsettles, bind, Except.bind]
    · have hlater := ih hrest (place + 1)
      dsimp only at hlater
      simp only [bind, Except.bind, if_neg hsettles, hlater]
      simp [hsettles, Function.comp_def, Nat.add_assoc, Nat.add_comm 1]

theorem failed_eq (conditions : List Condition) (logic : Logic) (w : World) :
    (evaluateConditions conditions logic w).failed =
      conditions.any (fun c => (c.evaluate w).failure.isSome) :=
  List.any_map

/-- A list that is not empty is let through if none of its conditions fails and, as the logic
has it, none settles the outcome as false or one of them settles it as true. -/
theorem triggered_eq (conditions : List Condition) (logic : Logic) (w : World) :
    (evaluateConditions conditions logic w).triggered =
      (!(evaluateConditions conditions logic w).failed && (conditions.isEmpty ||
        (evaluateConditions conditions logic w).decidedBy.isSome == logic.settling)) := by
  cases conditions with
  | nil => cases logic <;> rfl
  | cons c rest =>
    unfold evaluateConditions
    dsimp only
    generalize List.findIdx? _ _ = stop
    cases logic <;> cases stop <;> rfl

/-- A condition that fails keeps its rule from firing. -/
theorem triggered_eq_false_of_failure {v : Evaluation}
    (hv : v ∈ (evaluateConditions conditions logic w).evaluations) (hfailure : v.failure ≠ none) :
    (evaluateConditions conditions logic w).triggered = false := by
  have hfailed : (evaluateConditions conditions logic w).failed = true :=
    List.any_eq_true.mpr ⟨v, hv, Option.isSome_iff_ne_none.mpr hfailure⟩
  rw [triggered_eq, hfailed]
  rfl

/-- Whether a list is let through does not depend on the order of its conditions. -/
theorem triggered_of_perm (hperm : others.Perm conditions) :
    (evaluateConditions others logic w).triggered =
      (evaluateConditions conditions logic w).triggered := by
  have hstop (conditions : List Condition) :
      (evaluateConditions conditions logic w).decidedBy.isSome =
        conditions.any (fun c => (c.evaluate w).result == some logic.settling) := by
    simp [evaluateConditions, Function.comp_def]
  rw [triggered_eq, triggered_eq, failed_eq, failed_eq, hstop, hstop, hperm.any_eq, hperm.any_eq,
    hperm.isEmpty_eq]

/-- Who stops early comes to what who goes to the end comes to, unless a condition fails. -/
theorem settleConditions_eq (h : ∀ c ∈ conditions, ∃ result, c.check w = .ok result) :
    settleConditions conditions logic w =
      .ok ((evaluateConditions conditions logic w).triggered,
        (evaluateConditions conditions logic w).decidedBy) := by
  have hcalm : (evaluateConditions conditions logic w).failed = false := by
    rw [failed_eq, List.any_eq_false]
    intro c hc hfails
    obtain ⟨failure, hfailure⟩ := (c.isSome_failure_evaluate w).mp hfails
    obtain ⟨result, hresult⟩ := h c hc
    rw [hresult] at hfailure
    cases hfailure
  rw [triggered_eq, hcalm, settleConditions]
  cases conditions with
  | nil => rfl
  | cons c rest =>
    rw [settle_eq h]
    simp [evaluateConditions]

/-- Every condition of a list is evaluated, in order, and yet the outcome and the condition that
decides it are those of an evaluation that stops early, as long as no condition fails; where one
does, wherever it stands, the rule is not triggered. The order of the conditions may change
which of them decides the outcome, but not the outcome. -/
theorem conditions_are_decided_early (conditions : List Condition) (logic : Logic) (w : World) :
    let outcome := evaluateConditions conditions logic w
    ((∀ c ∈ conditions, ∃ result, c.check w = .ok result) →
      settleConditions conditions logic w = .ok (outcome.triggered, outcome.decidedBy)) ∧
    List.Forall₂ (fun c v => c.Records w v) conditions outcome.evaluations ∧
    ((∃ c ∈ conditions, ∃ failure, c.check w = .error failure) → outcome.triggered = false) ∧
    ∀ others : List Condition, others.Perm conditions →
      (evaluateConditions others logic w).triggered = outcome.triggered := by
  refine ⟨settleConditions_eq, ?_, ?_, fun others => triggered_of_perm⟩
  · change List.Forall₂ _ conditions (conditions.map (·.evaluate w))
    rw [List.forall₂_map_right_iff, List.forall₂_same]
    exact fun c _ => c.records_evaluate w
  · rintro ⟨c, hc, hfails⟩
    have hrecorded := (c.isSome_failure_evaluate w).mpr hfails
    exact triggered_eq_false_of_failure (List.mem_map.mpr ⟨c, hc, rfl⟩)
      (Option.isSome_iff_ne_none.mp hrecorded)

def breezy : World := { (default : World) with environment := .ofList [("wind", 10)] }

def windAbove (n : Value) : Condition := .between "environment.wind" .greater n

/-- The wind is not above twenty, and so it does not matter whether it is above five. -/
theorem breezy_is_decided_early :
    settleConditions [windAbove 20, windAbove 5] .all breezy = .ok (false, some 0) := by
  have hwind : ∀ c ∈ [windAbove 20, windAbove 5], ∃ result, c.check breezy = .ok result := by
    have hchecked : [windAbove 20, windAbove 5].all (fun c => (c.check breezy).isOk) = true := by
      decide +kernel
    intro c hc
    have hc := List.all_eq_true.mp hchecked c hc
    cases hresult : c.check breezy with
    | ok result => exact ⟨result, rfl⟩
    | error failure =>
      rw [hresult] at hc
      cases hc
  have houtcome : ((evaluateConditions [windAbove 20, windAbove 5] .all breezy).triggered,
      (evaluateConditions [windAbove 20, windAbove 5] .all breezy).decidedBy) = (false, some 0) := by
    decide +kernel
  obtain ⟨hlazy, -⟩ := conditions_are_decided_early [windAbove 20, windAbove 5] .all breezy
  rw [hlazy hwind, houtcome]

end Settling

end Harbormaster
