import Harbormaster.Proofs.Record.Members
import Harbormaster.Rule.Document

/-!
Rule sets that were accepted. A document is accepted only if each of its parts is, and
so the parameters that an action keeps are those that were checked. What a parameter is
for is not looked at here, only of which kind its value is: where it is written to a
cell or told to an event it is one that a cell may hold.
-/

namespace Harbormaster

def Value.fits (v : Value) : Bool := v.given?.all isStorable

theorem Value.fits_of_isStorable {v : Value} (h : v.isStorable = true) : v.fits = true := by
  cases v with
  | missing | absent | record | native | fallback => cases h
  | boolean | number | text | list => exact h

/-- An action whose parameters are of the right kind where they come into the world. -/
structure Action.Typed (a : Action) : Prop where
  value : a.value.fits = true
  eventType : a.eventType.fits = true
  eventSeverity : a.eventSeverity.fits = true
  payload : ∀ entry ∈ a.eventPayload.members.entries, entry.2.isStorable = true

def RuleSet.Typed (rules : RuleSet) : Prop :=
  ∀ rule ∈ rules.rules, ∀ action ∈ rule.actions, action.Typed

namespace Document

variable {α : Type}

theorem accept_eq_some_iff (value : Option α) (problems : List String) (a : α) :
    (accept value problems).value = some a ↔ value = some a ∧ problems = [] := by
  unfold accept
  cases problems with
  | nil => simp
  | cons => simp

theorem problemIf_eq_nil_iff (wrong : Bool) (place message : String) :
    problemIf wrong place message = [] ↔ wrong = false := by
  cases wrong with
  | false => simp [problemIf]
  | true => simp [problemIf]

section Action

variable {ruleIds : List String} {place : String} {kind : ActionKind} {r : Record Value}

theorem keptParameter_of_ne {name : String} (h : name ≠ "eventPayload") (v : Value) :
    keptParameter name v = v := by
  unfold keptParameter
  split
  · exact absurd rfl h
  · rfl

/-- What an action is kept with is missing or what is kept of what the document says of it,
and the latter only where its kind takes it. -/
theorem parameter_keptAction {P : Value → Prop} (name : String) (hname : name ≠ "type")
    (hmissing : P .missing)
    (hmember : name ∈ "metadata" :: parameterNames kind → P (keptParameter name (r.member name))) :
    P ((keptAction kind r).parameter name) := by
  unfold Action.parameter
  rw [Record.member]
  cases hfound : (keptAction kind r).members.get? name with
  | none => exact hmissing
  | some v =>
    rcases List.mem_cons.mp (Record.mem_of_get?_ofList hfound) with htype | hkept
    · cases htype
      exact absurd rfl hname
    · obtain ⟨kept, hkeptName, hentry⟩ := List.mem_filterMap.mp hkept
      obtain ⟨value, hvalue, heq⟩ := Option.map_eq_some_iff.mp hentry
      cases heq
      have hcase := hmember hkeptName
      rw [Record.member, hvalue] at hcase
      exact hcase

/-- What an event is spawned with is a parameter of no other kind of action. -/
theorem eq_spawnEvent_of_mem {name : String} (hname : name ∈ parameterNames .spawnEvent)
    (h : name ∈ "metadata" :: parameterNames kind) : kind = .spawnEvent := by
  simp only [parameterNames, List.mem_cons, List.not_mem_nil, or_false] at hname
  rcases hname with rfl | rfl | rfl
  · revert h
    cases kind <;> decide
  · revert h
    cases kind <;> decide
  · revert h
    cases kind <;> decide

theorem isStorable_value (hname : "value" ∈ "metadata" :: parameterNames kind)
    (h : parameterProblems kind place ruleIds r = []) : (r.member "value").isStorable = true := by
  cases kind with
  | set | add | recommend =>
    simpa using (problemIf_eq_nil_iff _ _ _).mp (List.append_eq_nil_iff.mp h).2
  | clamp | triggerRule | spawnEvent | log => simp [parameterNames] at hname

/-- What an accepted event is spawned with. -/
theorem spawn_of_parameterProblems (h : parameterProblems .spawnEvent place ruleIds r = []) :
    (r.member "eventType").fits = true ∧ (r.member "eventSeverity").fits = true ∧
      ∀ entry ∈ (r.member "eventPayload").members.entries, entry.2.isStorable = true := by
  obtain ⟨hfirst, hpayload⟩ := List.append_eq_nil_iff.mp h
  obtain ⟨htype, hseverity⟩ := List.append_eq_nil_iff.mp hfirst
  rw [problemIf_eq_nil_iff] at htype hseverity hpayload
  refine ⟨?_, ?_, ?_⟩
  · generalize r.member "eventType" = v at htype
    cases v with
    | text s => rfl
    | missing | absent | boolean | number | list | record | native | fallback => cases htype
  · generalize r.member "eventSeverity" = v at hseverity
    cases v with
    | missing | text => rfl
    | absent | boolean | number | list | record | native | fallback => cases hseverity
  · generalize r.member "eventPayload" = v at hpayload
    cases v with
    | missing => exact fun entry hentry => (List.not_mem_nil hentry).elim
    | absent | boolean | number | text | list | native | fallback => cases hpayload
    | record payload =>
      intro entry hentry
      have hall : payload.values.all Value.isStorable = true := by simpa using hpayload
      exact List.all_eq_true.mp hall _ (List.mem_map_of_mem hentry)

theorem typed_keptAction (h : parameterProblems kind place ruleIds r = []) :
    (keptAction kind r).Typed := by
  have hspawn : ∀ {name : String}, name ∈ parameterNames .spawnEvent →
      name ∈ "metadata" :: parameterNames kind →
        parameterProblems .spawnEvent place ruleIds r = [] := by
    intro name hname hkept
    rw [← eq_spawnEvent_of_mem hname hkept]
    exact h
  refine ⟨?_, ?_, ?_, ?_⟩
  · refine parameter_keptAction (P := (·.fits = true)) "value" (by decide) rfl fun hname => ?_
    rw [keptParameter_of_ne (by decide)]
    exact Value.fits_of_isStorable (isStorable_value hname h)
  · refine parameter_keptAction (P := (·.fits = true)) "eventType" (by decide) rfl fun hname => ?_
    rw [keptParameter_of_ne (by decide)]
    exact (spawn_of_parameterProblems (hspawn (by decide) hname)).1
  · refine parameter_keptAction (P := (·.fits = true)) "eventSeverity" (by decide) rfl
      fun hname => ?_
    rw [keptParameter_of_ne (by decide)]
    exact (spawn_of_parameterProblems (hspawn (by decide) hname)).2.1
  · refine parameter_keptAction (P := fun v => ∀ entry ∈ v.members.entries,
      entry.2.isStorable = true) "eventPayload" (by decide) ?_ ?_
    · exact fun entry hentry => (List.not_mem_nil hentry).elim
    · intro hname
      have hpayload := (spawn_of_parameterProblems (hspawn (by decide) hname)).2.2
      generalize r.member "eventPayload" = v at hpayload ⊢
      cases v with
      | record payload =>
        exact fun entry hentry => hpayload entry (List.mem_filter.mp hentry).1
      | missing | absent | boolean | number | text | list | native | fallback => exact hpayload

end Action

end Document

end Harbormaster
