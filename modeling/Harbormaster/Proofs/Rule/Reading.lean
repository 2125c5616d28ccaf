import Mathlib.Data.List.Forall2
import Harbormaster.Proofs.Rule.Passed
import Harbormaster.Proofs.Value.Plain
import Harbormaster.World.Document

/-!
What a document has to say to be read as a rule set, and what is then read. A check collects
problems with their places and goes on where it finds one; that it accepts exactly the parts
of which the relation here holds, and that only such parts are without problems, is shown
for each kind of part. So nothing that is malformed is passed over, whatever else there is.
-/

namespace Harbormaster

section Relations

variable {α : Type}

def Document.Item (R : Record Value → α → Prop) (v : Value) (a : α) : Prop :=
  ∃ r, v = .record r ∧ R r a

/-- A list that says as much as was read from it, item by item. -/
def Document.Listed (R : Record Value → α → Prop) (v : Value) (parts : List α) : Prop :=
  ∃ items, v = .list items ∧ List.Forall₂ (Document.Item R) items parts

open Document

structure Condition.ReadFrom (r : Record Value) (c : Condition) : Prop where
  left : (r.member "left").isStorable = true
  right : (r.member "right").isStorable = true
  sides : ∃ operator : Operator, r.member "operator" = .text operator.text ∧
    c = .between (r.member "left") operator (r.member "right")

/-- The ids are those of the rules that there are to be triggered. -/
structure Action.ReadFrom (ids : List String) (r : Record Value) (a : Action) : Prop where
  kind : r.member "type" = .text a.kind.text
  metadata : r.member "metadata" = .missing ∨
    ∃ metadata, r.member "metadata" = .record metadata
  kept : a = keptAction a.kind r
  passes : Action.Passes ids ⟨a.kind, r⟩

def Record.FitsStrategy (metadata : Record Value) : Prop :=
  metadata.member "conflictStrategy" = .missing ∨
    ∃ strategy : Strategy, metadata.member "conflictStrategy" = .text strategy.text

structure Rule.ReadFrom (ids : List String) (r : Record Value) (rule : Rule) : Prop where
  id : r.member "id" = .text rule.id
  named : rule.id ≠ ""
  priority : r.member "priority" = rule.priority ∧
    ∃ n : Number, rule.priority = .number n ∧ n.isFinite = true
  logic : memberOr r "logic" (.text Logic.all.text) = rule.logic ∧
    ∃ logic : Logic, rule.logic = .text logic.text
  conditions : Listed Condition.ReadFrom (memberOr r "conditions" (.list [])) rule.conditions
  actions : Listed (Action.ReadFrom ids) (r.member "action") rule.actions
  acts : rule.actions ≠ []
  template : memberOr r "explanationTemplate" (.text "") = .text rule.template
  metadata : memberOr r "metadata" (.record ∅) = .record rule.metadata
  strategy : rule.metadata.FitsStrategy

/-- A policy that is left out is the standard one, and so is each part of it. -/
inductive Policy.ReadFrom : Value → Policy → Prop where
  | standard : ReadFrom .missing .standard
  | given {r : Record Value} {policy : Policy}
      (hstrategy : r.member "strategy" = .text policy.strategy.text ∨
        r.member "strategy" = .missing ∧ policy.strategy = Policy.standard.strategy)
      (hreview : r.member "manualReviewRules" = .ofTexts policy.manualReviewRules ∨
        r.member "manualReviewRules" = .missing ∧ policy.manualReviewRules = [])
      (hmerge : r.member "mergeRules" = .ofTexts policy.mergeRules ∨
        r.member "mergeRules" = .missing ∧ policy.mergeRules = []) :
      ReadFrom (.record r) policy

def RuleSet.ids (s : RuleSet) : List String := s.rules.map (·.id)

structure RuleSet.ReadFrom (r : Record Value) (s : RuleSet) : Prop where
  rules : Listed (Rule.ReadFrom s.ids) (r.member "rules") s.rules
  distinct : s.ids.Nodup
  policy : s.policy.ReadFrom (r.member "conflictPolicy")
  known : ∀ id ∈ s.policy.manualReviewRules ++ s.policy.mergeRules, id ∈ s.ids

/-- A check that accepts exactly what a relation says, and finds a problem in all else. -/
structure Checked.Exact (checked : Checked α) (R : α → Prop) : Prop where
  value : ∀ a, checked.value = some a ↔ R a
  problems : checked.problems = [] ↔ ∃ a, R a

end Relations

theorem Document.Listed.of_mem {α : Type} {R : Record Value → α → Prop} {v : Value}
    {parts : List α} {part : α} (h : Document.Listed R v parts) (hpart : part ∈ parts) :
    ∃ r, R r part := by
  obtain ⟨items, -, hitems⟩ := h
  induction hitems with
  | nil => cases hpart
  | cons hitem _ ih =>
    rcases List.mem_cons.mp hpart with rfl | hrest
    · obtain ⟨r, -, hr⟩ := hitem
      exact ⟨r, hr⟩
    · exact ih hrest

section Texts

variable {α : Type}

/-- What a text stands for in a table of texts is what has that text, if every entry is found
under its own. -/
theorem find?_text_eq_some_iff {table : List α} {text : α → String}
    (htable : ∀ a, table.find? (text · = text a) = some a) {s : String} {a : α} :
    table.find? (text · = s) = some a ↔ s = text a := by
  constructor
  · intro h
    simpa [eq_comm] using List.find?_some h
  · rintro rfl
    exact htable a

theorem Operator.ofText?_eq_some_iff {s : String} {operator : Operator} :
    ofText? s = some operator ↔ s = operator.text :=
  find?_text_eq_some_iff fun operator => by cases operator <;> rfl

theorem Logic.ofText?_eq_some_iff {s : String} {logic : Logic} :
    ofText? s = some logic ↔ s = logic.text :=
  find?_text_eq_some_iff fun logic => by cases logic <;> rfl

theorem ActionKind.ofText?_eq_some_iff {s : String} {kind : ActionKind} :
    ofText? s = some kind ↔ s = kind.text :=
  find?_text_eq_some_iff fun kind => by cases kind <;> rfl

theorem Strategy.ofText?_eq_some_iff {s : String} {strategy : Strategy} :
    ofText? s = some strategy ↔ s = strategy.text :=
  find?_text_eq_some_iff fun strategy => by cases strategy <;> rfl

namespace Value

theorem text?_bind_eq_some_iff {v : Value} {ofText? : String → Option α} {text : α → String}
    {a : α} (hofText : ∀ {s}, ofText? s = some a ↔ s = text a) :
    v.text?.bind ofText? = some a ↔ v = .text (text a) := by
  rw [Option.bind_eq_some_iff]
  constructor
  · rintro ⟨s, hs, ha⟩
    rw [text?_eq_some_iff.mp hs, hofText.mp ha]
  · intro h
    exact ⟨_, text?_eq_some_iff.mpr h, hofText.mpr rfl⟩

theorem mapM_text?_eq_some_iff {items : List Value} {texts : List String} :
    items.mapM text? = some texts ↔ items = texts.map .text := by
  induction items generalizing texts with
  | nil => cases texts <;> simp
  | cons item items ih =>
    simp only [List.mapM_cons, Option.bind_eq_bind, Option.pure_def, Option.bind_eq_some_iff,
      Option.some.injEq, text?_eq_some_iff, ih]
    cases texts with
    | nil => simp
    | cons text texts => simp

theorem texts?_eq_some_iff {v : Value} {texts : List String} :
    v.texts? = some texts ↔ v = .ofTexts texts := by
  cases v with
  | list items => simp [texts?, list?, ofTexts, mapM_text?_eq_some_iff]
  | missing | absent | boolean | number | text | record | native | fallback =>
    simp [texts?, list?, ofTexts]

end Value

end Texts

namespace Document

section Checks

variable {α : Type} {R : α → Prop} {value : Option α} {problems : List String}

theorem exact_accept (hvalue : ∀ a, value = some a ∧ problems = [] ↔ R a)
    (hsome : problems = [] → ∃ a, value = some a) : (accept value problems).Exact R where
  value a := (accept_eq_some_iff _ _ _).trans (hvalue a)
  problems := by
    constructor
    · intro h
      obtain ⟨a, ha⟩ := hsome h
      exact ⟨a, (hvalue a).mp ⟨ha, h⟩⟩
    · rintro ⟨a, ha⟩
      exact ((hvalue a).mpr ha).2

theorem exact_refused (hproblems : problems ≠ []) (hnone : ∀ a, ¬ R a) :
    (Checked.mk none problems).Exact R where
  value a := ⟨nofun, fun h => (hnone a h).elim⟩
  problems := ⟨fun h => (hproblems h).elim, fun ⟨a, ha⟩ => (hnone a ha).elim⟩

/-- What is no record is no item. -/
theorem exact_item {check : Record Value → Checked α} {place message : String}
    {P : Record Value → α → Prop} (h : ∀ r, (check r).Exact (P r)) (v : Value) :
    (match v with
      | .record r => check r
      | _ => ⟨none, [problem place message]⟩ : Checked α).Exact (Item P v) := by
  cases v with
  | record r =>
    have hitem : Item P (.record r) = P r := by
      funext a
      simp [Item]
    rw [hitem]
    exact h r
  | missing | absent | boolean | number | text | list | native | fallback =>
    exact exact_refused (by simp) fun a ⟨r, hr, _⟩ => by cases hr

theorem exact_found (read : Option α) {checked : Checked α} (hread : ∀ a, read = some a ↔ R a)
    (hsome : ∀ a, read = some a → checked = ⟨some a, []⟩)
    (hnone : read = none → ∃ message, checked = ⟨none, [message]⟩) : checked.Exact R := by
  cases read with
  | some found =>
    rw [hsome found rfl]
    exact ⟨fun a => hread a, fun _ => ⟨found, (hread found).mp rfl⟩, fun _ => rfl⟩
  | none =>
    obtain ⟨message, rfl⟩ := hnone rfl
    exact exact_refused (by simp) fun a ha => by cases (hread a).mpr ha

section Optional

variable {v : Value} {spells : α → Value} {standard : α} {checked : Checked α}

/-- A part that is left out is as it is by standard. -/
theorem exact_missing (hmissing : v = .missing) (hspells : ∀ a, spells a ≠ .missing) :
    (Checked.mk (some standard) []).Exact fun a =>
      v = spells a ∨ v = .missing ∧ a = standard := by
  refine ⟨fun a => ?_, fun _ => ⟨standard, .inr ⟨hmissing, rfl⟩⟩, fun _ => rfl⟩
  simp [hmissing, (hspells a).symm, eq_comm]

theorem exact_given (hgiven : v ≠ .missing) (h : checked.Exact fun a => v = spells a) :
    checked.Exact fun a => v = spells a ∨ v = .missing ∧ a = standard := by
  simpa only [hgiven, false_and, or_false] using h

end Optional

/-- A list is read from its items if each part is read from its own. -/
theorem forall₂_iff_of_exact {check : Nat → Value → Checked α} {P : Value → α → Prop}
    (h : ∀ i item, (check i item).Exact (P item)) {items : List Value} {parts : List α} :
    List.Forall₂ P items parts ↔ (items.mapIdx check).filterMap (·.value) = parts ∧
      (items.mapIdx check).flatMap (·.problems) = [] := by
  induction items generalizing check parts with
  | nil => simp [eq_comm]
  | cons item items ih =>
    rw [List.mapIdx_cons, List.flatMap_cons, List.append_eq_nil_iff]
    constructor
    · rintro (_ | ⟨hpart, hrest⟩)
      obtain ⟨hparts, hproblems⟩ := (ih fun i => h (i + 1)).mp hrest
      refine ⟨?_, (h 0 item).problems.mpr ⟨_, hpart⟩, hproblems⟩
      rw [List.filterMap_cons_some (((h 0 item).value _).mpr hpart), hparts]
    · rintro ⟨rfl, hitem, hrest⟩
      obtain ⟨part, hpart⟩ := (h 0 item).problems.mp hitem
      rw [List.filterMap_cons_some (((h 0 item).value part).mpr hpart)]
      exact .cons hpart ((ih fun i => h (i + 1)).mpr ⟨rfl, hrest⟩)

theorem exact_checkEach {check : Nat → Value → Checked α} {P : Value → α → Prop}
    (h : ∀ i item, (check i item).Exact (P item)) (items : List Value) :
    (checkEach check items).Exact (List.Forall₂ P items) := by
  refine exact_accept (fun parts => ?_) fun _ => ⟨_, rfl⟩
  rw [Option.some.injEq]
  exact (forall₂_iff_of_exact h).symm

end Checks

section Parts

theorem exact_checkCondition (place : String) (v : Value) :
    (checkCondition place v).Exact (Item Condition.ReadFrom v) := by
  unfold checkCondition
  refine exact_item (fun r => ?_) v
  have hoperator : ∀ operator, Operator.ofValue? (r.member "operator") = some operator ↔
      r.member "operator" = .text operator.text :=
    fun operator => Value.text?_bind_eq_some_iff Operator.ofText?_eq_some_iff
  refine exact_accept (fun c => ?_) fun hproblems => ?_
  · simp only [List.append_eq_nil_iff, problemIf_eq_nil_iff, Bool.not_eq_false',
      Option.map_eq_some_iff, hoperator]
    constructor
    · rintro ⟨⟨operator, hop, rfl⟩, ⟨hleft, -⟩, hright⟩
      exact ⟨hleft, hright, operator, hop, rfl⟩
    · rintro ⟨hleft, hright, operator, hop, rfl⟩
      exact ⟨⟨operator, hop, rfl⟩, ⟨hleft, by simp [(hoperator operator).mpr hop]⟩, hright⟩
  · simp only [List.append_eq_nil_iff, problemIf_eq_nil_iff, Option.isNone_eq_false_iff,
      Option.isSome_iff_exists] at hproblems
    obtain ⟨⟨-, operator, hop⟩, -⟩ := hproblems
    exact ⟨_, by rw [hop]; rfl⟩

theorem exact_checkAction (ids : List String) (place : String) (v : Value) :
    (checkAction ids place v).Exact (Item (Action.ReadFrom ids) v) := by
  unfold checkAction
  refine exact_item (fun r => ?_) v
  have hkind : ∀ kind, (r.member "type").text?.bind ActionKind.ofText? = some kind ↔
      r.member "type" = .text kind.text :=
    fun kind => Value.text?_bind_eq_some_iff ActionKind.ofText?_eq_some_iff
  have hmetadata : (!(r.member "metadata").isMissing && !isRecord (r.member "metadata")) = false ↔
      r.member "metadata" = .missing ∨ ∃ metadata, r.member "metadata" = .record metadata := by
    cases r.member "metadata" <;> simp [Value.isMissing, isRecord]
  split
  · rename_i kind hkindOf
    refine exact_accept (fun a => ?_) fun _ => ⟨_, rfl⟩
    simp only [List.append_eq_nil_iff, problemIf_eq_nil_iff, hmetadata, Option.some.injEq]
    constructor
    · rintro ⟨rfl, hrecord, hparameters⟩
      exact ⟨(hkind kind).mp hkindOf, hrecord, rfl, (passes_iff _).mpr hparameters⟩
    · rintro ⟨htype, hrecord, hkept, hpasses⟩
      have hsame : kind = a.kind := Option.some.inj (hkindOf.symm.trans ((hkind _).mpr htype))
      rw [hsame]
      exact ⟨hkept.symm, hrecord, (passes_iff _).mp hpasses⟩
  · rename_i hkindOf
    refine exact_refused (by simp) fun a ha => ?_
    rw [(hkind _).mpr ha.kind] at hkindOf
    cases hkindOf

theorem exact_checkConditions (place : String) (v : Value) :
    (checkConditions place v).Exact (Listed Condition.ReadFrom v) := by
  cases v with
  | list items =>
    have hlisted : Listed Condition.ReadFrom (.list items) =
        List.Forall₂ (Item Condition.ReadFrom) items := by
      funext parts
      simp [Listed]
    rw [hlisted]
    exact exact_checkEach (fun i => exact_checkCondition _) items
  | missing | absent | boolean | number | text | record | native | fallback =>
    exact exact_refused (by simp) fun parts ⟨items, hitems, _⟩ => by cases hitems

theorem exact_checkActions (ids : List String) (place : String) (v : Value) :
    (checkActions ids place v).Exact fun actions =>
      Listed (Action.ReadFrom ids) v actions ∧ actions ≠ [] := by
  cases v with
  | list items =>
    cases items with
    | nil => exact exact_refused (by simp) (by simp [Listed])
    | cons first rest =>
      have hlisted : (fun actions => Listed (Action.ReadFrom ids) (.list (first :: rest)) actions ∧
          actions ≠ []) = List.Forall₂ (Item (Action.ReadFrom ids)) (first :: rest) := by
        funext actions
        cases actions with
        | nil => simp
        | cons => simp [Listed]
      rw [hlisted]
      exact exact_checkEach (fun i => exact_checkAction _ _) (first :: rest)
  | missing | absent | boolean | number | text | record | native | fallback =>
    exact exact_refused (by simp) fun parts ⟨⟨items, hitems, _⟩, _⟩ => by cases hitems

theorem strategyProblems_eq_nil_iff (place : String) (metadata : Record Value) :
    strategyProblems place metadata = [] ↔ metadata.FitsStrategy := by
  have hstrategy : ∀ v : Value, (Strategy.ofValue? v).isNone = false ↔
      ∃ strategy : Strategy, v = .text strategy.text := by
    intro v
    rw [Option.isNone_eq_false_iff, Option.isSome_iff_exists]
    exact exists_congr fun strategy => Value.text?_bind_eq_some_iff Strategy.ofText?_eq_some_iff
  unfold strategyProblems Record.FitsStrategy
  split
  · rename_i hmissing
    simp [hmissing]
  · rename_i hgiven
    rw [problemIf_eq_nil_iff, hstrategy]
    exact ⟨.inr, fun h => h.resolve_left hgiven⟩

theorem exact_checkMetadata (place : String) (v : Value) :
    (checkMetadata place v).Exact fun metadata =>
      v = .record metadata ∧ metadata.FitsStrategy := by
  cases v with
  | record r =>
    refine exact_accept (fun metadata => ?_) fun _ => ⟨_, rfl⟩
    rw [strategyProblems_eq_nil_iff, Option.some.injEq, Value.record.injEq]
    constructor
    · rintro ⟨rfl, hfits⟩
      exact ⟨rfl, hfits⟩
    · rintro ⟨rfl, hfits⟩
      exact ⟨rfl, hfits⟩
  | missing | absent | boolean | number | text | list | native | fallback =>
    exact exact_refused (by simp) fun metadata ⟨hmetadata, _⟩ => by cases hmetadata

theorem exact_checkRule (ids : List String) (index : Nat) (v : Value) :
    (checkRule ids index v).Exact (Item (Rule.ReadFrom ids) v) := by
  unfold checkRule
  refine exact_item (fun r => ?_) v
  have hid : ∀ id, (r.member "id").text?.filter (!·.isEmpty) = some id ↔
      r.member "id" = .text id ∧ id ≠ "" := by
    intro id
    simp [Option.filter_eq_some_iff, Value.text?_eq_some_iff]
  have hpriority : ∀ n, (r.member "priority").number?.filter (·.isFinite) = some n ↔
      r.member "priority" = .number n ∧ n.isFinite = true := by
    intro n
    rw [Option.filter_eq_some_iff, Value.number?_eq_some_iff]
  have hlogic : ∀ logic : Logic, (memberOr r "logic" (.text Logic.all.text)).text?.bind
      Logic.ofText? = some logic ↔
        memberOr r "logic" (.text Logic.all.text) = .text logic.text :=
    fun logic => Value.text?_bind_eq_some_iff Logic.ofText?_eq_some_iff
  -- Where the problems of a rule are reported does not matter to whether there are any.
  have hconditions := fun place =>
    exact_checkConditions place (memberOr r "conditions" (.list []))
  have hactions := fun place => exact_checkActions ids place (r.member "action")
  have hmetadata := fun place => exact_checkMetadata place (memberOr r "metadata" (.record ∅))
  have htemplate : ∀ template, (memberOr r "explanationTemplate" (.text "")).text? =
      some template ↔ memberOr r "explanationTemplate" (.text "") = .text template :=
    fun template => Value.text?_eq_some_iff
  refine exact_accept (fun rule => ?_) fun hproblems => ?_
  · constructor
    · rintro ⟨hvalue, -⟩
      simp only [Option.bind_eq_bind, Option.bind_eq_some_iff, Option.pure_def,
        Option.some.injEq, hid, hpriority, hlogic, (hconditions _).value, (hactions _).value,
        htemplate, (hmetadata _).value] at hvalue
      obtain ⟨id, ⟨hid, hnamed⟩, n, ⟨hpriority, hfinite⟩, conditions, hconditions, logic,
        hlogic, actions, ⟨hactions, hacts⟩, template, htemplate, metadata,
        ⟨hmetadata, hstrategy⟩, rfl⟩ := hvalue
      exact ⟨hid, hnamed, ⟨hpriority, n, rfl, hfinite⟩, ⟨hlogic, logic, rfl⟩, hconditions,
        hactions, hacts, htemplate, hmetadata, hstrategy⟩
    · intro h
      obtain ⟨hnumber, n, hn, hfinite⟩ := h.priority
      obtain ⟨htext, logic, hl⟩ := h.logic
      have hmeta := (⟨h.metadata, h.strategy⟩ : _ ∧ _)
      have hacts := (⟨h.actions, h.acts⟩ : _ ∧ _)
      rw [(hid _).mpr ⟨h.id, h.named⟩, (hpriority n).mpr ⟨hnumber.trans hn, hfinite⟩,
        (hlogic logic).mpr (htext.trans hl), ((hconditions _).value _).mpr h.conditions,
        ((hactions _).value _).mpr hacts, (htemplate _).mpr h.template,
        ((hmetadata _).value _).mpr hmeta, (hconditions _).problems.mpr ⟨_, h.conditions⟩,
        (hactions _).problems.mpr ⟨_, hacts⟩, (hmetadata _).problems.mpr ⟨_, hmeta⟩]
      obtain ⟨id, priority, conditions, _, actions, template, metadata⟩ := rule
      cases hn
      cases hl
      exact ⟨rfl, rfl⟩
  · simp only [List.append_eq_nil_iff, problemIf_eq_nil_iff, Option.isNone_eq_false_iff,
      Option.isSome_iff_exists, (hconditions _).problems, (hactions _).problems,
      (hmetadata _).problems] at hproblems
    obtain ⟨⟨⟨⟨⟨⟨⟨id, hid⟩, n, hpriority⟩, logic, hlogic⟩, conditions, hread⟩, actions, hacts⟩,
      template, htemplate⟩, metadata, hmeta⟩ := hproblems
    rw [hid, hpriority, hlogic, ((hconditions _).value _).mpr hread,
      ((hactions _).value _).mpr hacts, htemplate, ((hmetadata _).value _).mpr hmeta]
    exact ⟨_, rfl⟩

theorem exact_checkListed (r : Record Value) (name : String) :
    (checkListed r name).Exact fun ids =>
      r.member name = .ofTexts ids ∨ r.member name = .missing ∧ ids = [] := by
  unfold checkListed
  split
  · rename_i hmissing
    exact exact_missing hmissing nofun
  · rename_i hgiven
    refine exact_given hgiven (exact_found _ (fun _ => Value.texts?_eq_some_iff) ?_ ?_)
    · exact fun ids hids => by simp only [hids]
    · exact fun hnone => ⟨_, by simp only [hnone]; rfl⟩

theorem exact_checkStrategy (r : Record Value) :
    (checkStrategy r).Exact fun strategy =>
      r.member "strategy" = .text strategy.text ∨
        r.member "strategy" = .missing ∧ strategy = Policy.standard.strategy := by
  unfold checkStrategy
  split
  · rename_i hmissing
    exact exact_missing hmissing nofun
  · rename_i hgiven
    refine exact_given hgiven (exact_found (Strategy.ofValue? (r.member "strategy"))
      (fun _ => Value.text?_bind_eq_some_iff Strategy.ofText?_eq_some_iff) ?_ ?_)
    · exact fun strategy hstrategy => by simp only [hstrategy]
    · exact fun hnone => ⟨_, by simp only [hnone]; rfl⟩

theorem checkPolicy_eq_iff {v : Value} {policy : Policy} :
    checkPolicy v = (policy, []) ↔ policy.ReadFrom v := by
  cases v with
  | missing =>
    rw [checkPolicy, Prod.mk.injEq]
    constructor
    · rintro ⟨rfl, -⟩
      exact .standard
    · rintro ⟨⟩
      exact ⟨rfl, rfl⟩
  | record r =>
    have hstrategy := exact_checkStrategy r
    have hreview := exact_checkListed r "manualReviewRules"
    have hmerge := exact_checkListed r "mergeRules"
    simp only [checkPolicy, Prod.mk.injEq, List.append_eq_nil_iff]
    constructor
    · rintro ⟨rfl, ⟨hs, hr⟩, hm⟩
      obtain ⟨strategy, hs⟩ := hstrategy.problems.mp hs
      obtain ⟨review, hr⟩ := hreview.problems.mp hr
      obtain ⟨merge, hm⟩ := hmerge.problems.mp hm
      rw [(hstrategy.value _).mpr hs, (hreview.value _).mpr hr, (hmerge.value _).mpr hm]
      exact .given hs hr hm
    · rintro ⟨⟩
      rename_i hs hr hm
      rw [(hstrategy.value _).mpr hs, (hreview.value _).mpr hr, (hmerge.value _).mpr hm]
      exact ⟨rfl, ⟨hstrategy.problems.mpr ⟨_, hs⟩, hreview.problems.mpr ⟨_, hr⟩⟩,
        hmerge.problems.mpr ⟨_, hm⟩⟩
  | absent | boolean | number | text | list | native | fallback => exact ⟨nofun, nofun⟩

end Parts

section Whole

variable {ids : List String} {items : List Value} {rules : List Rule}

/-- Rules that are read have the ids that their document declares. -/
theorem declaredIds_of_forall₂ (h : List.Forall₂ (Item (Rule.ReadFrom ids)) items rules) :
    declaredIds items = rules.map (·.id) := by
  induction h with
  | nil => rfl
  | @cons item rule items rules hrule _ ih =>
    obtain ⟨r, rfl, hread⟩ := hrule
    unfold declaredIds at ih ⊢
    rw [List.filterMap_cons_some (b := rule.id) (by simp [Value.record?, hread.id, Value.text?]),
      ih, List.map_cons]

/-- No id is repeated exactly if all of them differ. -/
theorem repeated_eq_nil_iff (seen ids : List String) :
    repeated seen ids = [] ↔ ids.Nodup ∧ ∀ id ∈ ids, id ∉ seen := by
  induction ids generalizing seen with
  | nil => simp [repeated]
  | cons id rest ih =>
    unfold repeated
    by_cases hseen : id ∈ seen
    · simp [hseen]
    · simp only [List.contains_iff_mem, hseen, if_false, ih, List.nodup_cons, List.mem_cons]
      grind

end Whole

end Document

namespace RuleSet

open Document

variable {raw : Value} {source : String} {s : RuleSet}

/-- A document is read as a rule set exactly if it is a record that says what the rule set
has, part by part. -/
theorem ofDocument_eq_ok_iff :
    RuleSet.ofDocument raw source = .ok s ↔ Item RuleSet.ReadFrom raw s := by
  unfold ofDocument
  split
  · rename_i hnone
    refine ⟨nofun, ?_⟩
    rintro ⟨r, rfl, ⟨items, hitems, -⟩, -, -, -⟩
    simp [Value.record?, hitems, Value.list?] at hnone
  · rename_i r items hlist
    obtain ⟨rfl, hrules⟩ : raw = .record r ∧ r.member "rules" = .list items := by
      cases raw with
      | record r' =>
        simp only [Value.record?, Option.bind_some, Option.map_eq_some_iff, Prod.mk.injEq] at hlist
        obtain ⟨found, hfound, rfl, rfl⟩ := hlist
        exact ⟨rfl, Value.list?_eq_some_iff.mp hfound⟩
      | missing | absent | boolean | number | text | list | native | fallback => cases hlist
    have hchecked := exact_checkEach (exact_checkRule (declaredIds items)) items
    dsimp only
    constructor
    · intro h
      split at h
      · rename_i rules hvalue hproblems
        cases h
        simp only [List.append_eq_nil_iff, List.map_eq_nil_iff, repeated_eq_nil_iff,
          List.filter_eq_nil_iff] at hproblems
        obtain ⟨⟨⟨⟨hdistinct, -⟩, hpolicy⟩, hknown⟩, -⟩ := hproblems
        have hread := (hchecked.value _).mp hvalue
        rw [declaredIds_of_forall₂ hread] at hdistinct hknown hread
        refine ⟨r, rfl, ⟨items, hrules, hread⟩, hdistinct,
          checkPolicy_eq_iff.mp (Prod.ext rfl hpolicy), ?_⟩
        intro id hid
        simpa [ids] using hknown id hid
      · cases h
    · rintro ⟨_, ⟨⟩, ⟨others, hothers, hread⟩, hdistinct, hpolicy, hknown⟩
      obtain rfl : items = others := Value.list.inj (hrules.symm.trans hothers)
      have hids : declaredIds items = s.ids := declaredIds_of_forall₂ hread
      rw [← hids] at hread hdistinct
      have hproblems : ((repeated [] (declaredIds items)).map fun id =>
          problem ("rules (" ++ id ++ ")") "duplicate rule id") = [] := by
        rw [(repeated_eq_nil_iff _ _).mpr ⟨hdistinct, fun _ _ => List.not_mem_nil⟩]
        rfl
      have hunknown : ((s.policy.manualReviewRules ++ s.policy.mergeRules).filter
          (!(declaredIds items).contains ·)) = [] := by
        rw [List.filter_eq_nil_iff]
        intro id hid
        simpa [hids] using hknown id hid
      rw [checkPolicy_eq_iff.mpr hpolicy]
      simp only [hproblems, hunknown, (hchecked.value _).mpr hread,
        hchecked.problems.mpr ⟨_, hread⟩]
      rfl

/-- The actions of an accepted document are well typed. -/
theorem typed_of_document (h : RuleSet.ofDocument raw source = .ok s) : s.Typed := by
  obtain ⟨_, -, hread⟩ := ofDocument_eq_ok_iff.mp h
  intro rule hrule a ha
  obtain ⟨_, hrule⟩ := hread.rules.of_mem hrule
  obtain ⟨_, ha⟩ := hrule.actions.of_mem ha
  rw [ha.kept]
  exact typed_keptAction ((passes_iff "").mp ha.passes)

/-- The rules of an accepted document have ids of their own, and their actions pass where
these are the rules. -/
theorem passes_of_document (h : RuleSet.ofDocument raw source = .ok s) :
    s.ids.Nodup ∧ ∀ rule ∈ s.rules, rule.id ≠ "" ∧ ∀ a ∈ rule.actions, a.Passes s.ids := by
  obtain ⟨_, -, hread⟩ := ofDocument_eq_ok_iff.mp h
  refine ⟨hread.distinct, fun rule hrule => ?_⟩
  obtain ⟨_, hrule⟩ := hread.rules.of_mem hrule
  refine ⟨hrule.named, fun a ha => ?_⟩
  obtain ⟨_, ha⟩ := hrule.actions.of_mem ha
  rw [ha.kept]
  exact passes_keptAction ha.passes

end RuleSet

end Harbormaster
