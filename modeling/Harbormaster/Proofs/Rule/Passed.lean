import Harbormaster.Proofs.Rule.Accepted

/-!
Rule sets that were accepted, as those find them that carry them out. An accepted
action is kept with every parameter that was checked, so it would pass the same check
again, and where in the document it stood is of no matter.
-/

namespace Harbormaster

def Action.Passes (ruleIds : List String) (a : Action) : Prop :=
  ∃ place, Document.parameterProblems a.kind place ruleIds a.members = []

namespace Document

section Action

variable {ruleIds : List String} {place : String} {kind : ActionKind} {r : Record Value}

/-- The members of a record that are kept are under the names that the record has. -/
theorem map_fst_filterMap_get? (names : List String) :
    ((names.filterMap fun name =>
      (r.get? name).map fun value => (name, keptParameter name value)).map (·.1)) =
      names.filter r.contains := by
  induction names with
  | nil => rfl
  | cons name names ih =>
    cases hname : r.get? name with
    | none =>
      have hcontains : r.contains name = false := by simp [Record.contains, hname]
      rw [List.filterMap_cons_none (by rw [hname]; rfl), ih,
        List.filter_cons_of_neg (by simp [hcontains])]
    | some value =>
      have hcontains : r.contains name = true := by simp [Record.contains, hname]
      rw [List.filterMap_cons_some (by rw [hname]; rfl), List.map_cons, ih,
        List.filter_cons_of_pos hcontains]

theorem nodup_type_parameterNames (kind : ActionKind) :
    ("type" :: "metadata" :: parameterNames kind).Nodup := by
  cases kind <;> decide

theorem nodup_kept (kind : ActionKind) (r : Record Value) :
    ((("type", Value.text kind.text) :: ("metadata" :: parameterNames kind).filterMap fun name =>
      (r.get? name).map fun value => (name, keptParameter name value)).map (·.1)).Nodup := by
  obtain ⟨htype, hnames⟩ := List.nodup_cons.mp (nodup_type_parameterNames kind)
  rw [List.map_cons, map_fst_filterMap_get?, List.nodup_cons]
  exact ⟨fun h => htype (List.mem_of_mem_filter h), hnames.filter _⟩

theorem type_keptAction : (keptAction kind r).members.get? "type" = some (.text kind.text) :=
  (Record.get?_ofList_eq_some_iff (nodup_kept kind r)).mpr List.mem_cons_self

/-- What a document gives under the names of its kind, and nothing else, is kept with the
action. -/
theorem get?_keptAction {name : String} (hname : name ∈ "metadata" :: parameterNames kind) :
    (keptAction kind r).members.get? name = (r.get? name).map (keptParameter name) := by
  apply Option.ext
  intro value
  rw [keptAction, Record.get?_ofList_eq_some_iff (nodup_kept kind r), List.mem_cons,
    List.mem_filterMap]
  constructor
  · rintro (heq | ⟨other, -, hother⟩)
    · cases heq
      exact absurd hname (List.nodup_cons.mp (nodup_type_parameterNames kind)).1
    · obtain ⟨found, hfound, heq⟩ := Option.map_eq_some_iff.mp hother
      cases heq
      simp [hfound]
  · intro h
    obtain ⟨found, hfound, rfl⟩ := Option.map_eq_some_iff.mp h
    exact .inr ⟨name, hname, by rw [hfound]; rfl⟩

/-- A parameter that is kept already is kept as it is. -/
theorem keptParameter_keptParameter (name : String) (v : Value) :
    keptParameter name (keptParameter name v) = keptParameter name v := by
  by_cases hname : name = "eventPayload"
  · subst hname
    cases v with
    | record payload => simp [keptParameter, Record.erase, List.filter_filter]
    | missing | absent | boolean | number | text | list | native | fallback => rfl
  · rw [keptParameter_of_ne hname]

/-- Of an action that is kept already everything is kept. -/
theorem keptAction_keptAction :
    keptAction kind (keptAction kind r).members = keptAction kind r := by
  have hsame : (("metadata" :: parameterNames kind).filterMap fun name =>
      ((keptAction kind r).members.get? name).map fun value => (name, keptParameter name value)) =
        ("metadata" :: parameterNames kind).filterMap fun name =>
          (r.get? name).map fun value => (name, keptParameter name value) :=
    List.filterMap_congr fun name hname => by
      rw [get?_keptAction hname, Option.map_map]
      simp [Function.comp_def, keptParameter_keptParameter]
  rw [keptAction, hsame, keptAction]

/-- Each parameter of its kind that a document gives is kept with the action. -/
theorem member_keptAction {name : String} (hname : name ∈ parameterNames kind) :
    (keptAction kind r).members.member name = keptParameter name (r.member name) := by
  rw [Record.member, get?_keptAction (List.mem_cons_of_mem _ hname), Record.member]
  cases r.get? name with
  | some value => rfl
  | none =>
    by_cases hpayload : name = "eventPayload"
    · subst hpayload
      rfl
    · exact (keptParameter_of_ne hpayload _).symm

/-- What is kept of a record without problems has none. Of a payload not everything is kept. -/
theorem parameterProblems_keptAction (h : parameterProblems kind place ruleIds r = []) :
    parameterProblems kind place ruleIds (keptAction kind r).members = [] := by
  have hkept : ∀ name ∈ parameterNames kind, name ≠ "eventPayload" →
      (keptAction kind r).members.member name = r.member name := fun name hname hne =>
    (member_keptAction hname).trans (keptParameter_of_ne hne _)
  cases kind with
  | set | add | recommend =>
    simpa only [parameterProblems, hkept "target" (by decide) (by decide),
      hkept "value" (by decide) (by decide)] using h
  | clamp =>
    simpa only [parameterProblems, hkept "target" (by decide) (by decide),
      hkept "minValue" (by decide) (by decide), hkept "maxValue" (by decide) (by decide)] using h
  | triggerRule => simpa only [parameterProblems, hkept "ruleId" (by decide) (by decide)] using h
  | spawnEvent =>
    simp only [parameterProblems, List.append_eq_nil_iff, problemIf_eq_nil_iff,
      hkept "eventType" (by decide) (by decide), hkept "eventSeverity" (by decide) (by decide),
      member_keptAction (show "eventPayload" ∈ parameterNames .spawnEvent by decide)] at h ⊢
    refine ⟨h.1, ?_⟩
    have hpayload := h.2
    generalize r.member "eventPayload" = v at hpayload ⊢
    cases v with
    | record payload =>
      simp only [keptParameter, Record.values, Record.erase, Bool.not_eq_false', List.all_map,
        List.all_eq_true, List.mem_filter] at hpayload ⊢
      exact fun entry hentry => hpayload entry hentry.1
    | missing => rfl
    | absent | boolean | number | text | list | native | fallback => cases hpayload
  | log =>
    simpa only [parameterProblems, hkept "logMessage" (by decide) (by decide),
      hkept "logLevel" (by decide) (by decide), hkept "target" (by decide) (by decide)] using h

/-- What is wrong with parameters is settled by which ids there are, not by their order and
not by the place. -/
theorem parameterProblems_eq_nil_congr {others : List String} {another : String}
    (hids : ∀ id, id ∈ ruleIds ↔ id ∈ others) :
    parameterProblems kind place ruleIds r = [] ↔
      parameterProblems kind another others r = [] := by
  have hisOneOf : ∀ v, isOneOf ruleIds v = isOneOf others v := by
    intro v
    cases v with
    | text id =>
      rw [Bool.eq_iff_iff, isOneOf, isOneOf, List.contains_iff_mem, List.contains_iff_mem]
      exact hids id
    | missing | absent | boolean | number | list | record | native | fallback => rfl
  cases kind with
  | set | add | recommend | triggerRule | spawnEvent | log =>
    simp only [parameterProblems, List.append_eq_nil_iff, problemIf_eq_nil_iff, hisOneOf]
  | clamp =>
    simp only [parameterProblems, List.append_eq_nil_iff, problemIf_eq_nil_iff]
    refine and_congr_right fun _ => ?_
    split
    · simp only [problemIf_eq_nil_iff]
    · rfl

/-- Whether the parameters that a document gives pass is no matter of their place. -/
theorem passes_iff (place : String) :
    Action.Passes ruleIds ⟨kind, r⟩ ↔ parameterProblems kind place ruleIds r = [] := by
  constructor
  · rintro ⟨another, h⟩
    exact (parameterProblems_eq_nil_congr fun _ => Iff.rfl).mp h
  · intro h
    exact ⟨place, h⟩

/-- An action is kept with parameters that pass if those that the document gives do. -/
theorem passes_keptAction (h : Action.Passes ruleIds ⟨kind, r⟩) :
    (keptAction kind r).Passes ruleIds := by
  obtain ⟨place, hplace⟩ := h
  exact ⟨place, parameterProblems_keptAction hplace⟩

end Action

end Document

/-- Whether an action passes is settled by which ids there are. -/
theorem Action.Passes.congr {ids others : List String} {a : Action}
    (hids : ∀ id, id ∈ ids ↔ id ∈ others) (h : a.Passes ids) : a.Passes others := by
  obtain ⟨place, hplace⟩ := h
  exact ⟨place, (Document.parameterProblems_eq_nil_congr hids).mp hplace⟩

end Harbormaster
