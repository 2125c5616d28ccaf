import Mathlib.Data.List.Perm.Basic
import Harbormaster.Explanation.Document
import Harbormaster.Proofs.Rule.Reading

/-!
Rule sets as documents. What was read from a document says in full what the document may
leave to the standard, and says nothing that the document does not; so reading it again
changes nothing. The rules may be listed in any order: a document with its rules in another
order is read with its rules in that order, or is refused as well.
-/

namespace Harbormaster

def Rule.toValue (rule : Rule) : Value :=
  .object
    [("id", .text rule.id),
      ("priority", rule.priority),
      ("conditions", .list (rule.conditions.map Condition.toValue)),
      ("logic", rule.logic),
      ("action", .list (rule.actions.map Action.toValue)),
      ("explanationTemplate", .text rule.template),
      ("metadata", .record rule.metadata)]

def Policy.toValue (policy : Policy) : Value :=
  .object
    [("strategy", .text policy.strategy.text),
      ("manualReviewRules", .ofTexts policy.manualReviewRules),
      ("mergeRules", .ofTexts policy.mergeRules)]

def RuleSet.toValue (s : RuleSet) : Value :=
  .object
    [("rules", .list (s.rules.map Rule.toValue)),
      ("conflictPolicy", s.policy.toValue)]

open Document

section Again

variable {ids : List String} {r : Record Value}

/-- A list is read from what each of its parts is written as. -/
theorem Document.Listed.of_items {α : Type} {R : Record Value → α → Prop} {toValue : α → Value}
    {parts : List α} (h : ∀ part ∈ parts, Item R (toValue part) part) :
    Listed R (.list (parts.map toValue)) parts :=
  ⟨_, rfl, List.forall₂_map_left_iff.mpr (List.forall₂_same.mpr h)⟩

theorem Condition.ReadFrom.again {c : Condition} (h : c.ReadFrom r) :
    Item Condition.ReadFrom c.toValue c := by
  obtain ⟨hleft, hright, operator, -, rfl⟩ := h
  refine ⟨_, rfl, ?_, ?_, operator, ?_, ?_⟩
  · simpa [Condition.between, Record.ofList, Record.member] using hleft
  · simpa [Condition.between, Record.ofList, Record.member] using hright
  · simp [Condition.between, Record.ofList, Record.member]
  · simp [Condition.between, Record.ofList, Record.member]

theorem Action.ReadFrom.again {a : Action} (h : a.ReadFrom ids r) :
    Item (Action.ReadFrom ids) a.toValue a := by
  have hpasses := passes_keptAction h.passes
  rw [← h.kept] at hpasses
  refine ⟨a.members, rfl, ?_, ?_, ?_, hpasses⟩
  · rw [h.kept, Record.member, type_keptAction]
    rfl
  · have hmetadata := h.metadata
    rw [h.kept, Record.member, get?_keptAction List.mem_cons_self]
    unfold Record.member at hmetadata
    cases hfound : r.get? "metadata" with
    | none => exact .inl rfl
    | some found =>
      rw [hfound] at hmetadata
      exact hmetadata
  · conv_rhs => rw [h.kept]
    exact h.kept.trans keptAction_keptAction.symm

theorem Rule.ReadFrom.again {rule : Rule} (h : rule.ReadFrom ids r) :
    Item (Rule.ReadFrom ids) rule.toValue rule := by
  obtain ⟨-, logic, hlogic⟩ := h.logic
  refine ⟨_, rfl, ?_⟩
  constructor
  case id => simp [Record.ofList, Record.member]
  case named => exact h.named
  case priority => exact ⟨by simp [Record.ofList, Record.member], h.priority.2⟩
  case logic =>
    exact ⟨by simp [Record.ofList, Record.member, memberOr, hlogic, Value.given?], logic, hlogic⟩
  case conditions =>
    have hread : Listed Condition.ReadFrom (.list (rule.conditions.map Condition.toValue))
        rule.conditions := by
      refine .of_items fun c hc => ?_
      obtain ⟨_, hc⟩ := h.conditions.of_mem hc
      exact hc.again
    simpa [Record.ofList, Record.member, memberOr, Value.given?] using hread
  case actions =>
    have hread : Listed (Action.ReadFrom ids) (.list (rule.actions.map Action.toValue))
        rule.actions := by
      refine .of_items fun a ha => ?_
      obtain ⟨_, ha⟩ := h.actions.of_mem ha
      exact ha.again
    simpa [Record.ofList, Record.member] using hread
  case acts => exact h.acts
  case template => simp [Record.ofList, Record.member, memberOr, Value.given?]
  case metadata => simp [Record.ofList, Record.member, memberOr, Value.given?]
  case strategy => exact h.strategy

theorem Policy.readFrom_toValue (policy : Policy) : policy.ReadFrom policy.toValue :=
  .given (.inl (by simp [Record.ofList, Record.member]))
    (.inl (by simp [Record.ofList, Record.member])) (.inl (by simp [Record.ofList, Record.member]))

theorem RuleSet.ReadFrom.again {s : RuleSet} (h : s.ReadFrom r) :
    Item RuleSet.ReadFrom s.toValue s := by
  refine ⟨_, rfl, ?_, h.distinct, ?_, h.known⟩
  · have hread : Listed (Rule.ReadFrom s.ids) (.list (s.rules.map Rule.toValue)) s.rules := by
      refine .of_items fun rule hrule => ?_
      obtain ⟨_, hrule⟩ := h.rules.of_mem hrule
      exact hrule.again
    simpa [Record.ofList, Record.member] using hread
  · simpa [Record.ofList, Record.member] using s.policy.readFrom_toValue

end Again

/-- The items of a list at the given places, in the order of the places. -/
def arranged {α : Type} (places : List Nat) (items : List α) : List α :=
  places.filterMap (items[·]?)

/-- The rule set with its rules in another order. -/
def RuleSet.arrange (s : RuleSet) (places : List Nat) : RuleSet :=
  { s with rules := arranged places s.rules }

section Arranging

variable {α β : Type} {places : List Nat} {ids others : List String} {r : Record Value}

theorem arranged_map (f : α → β) (places : List Nat) (items : List α) :
    arranged places (items.map f) = (arranged places items).map f := by
  simp [arranged, List.map_filterMap]

theorem arranged_range (items : List α) : arranged (List.range items.length) items = items := by
  induction items with
  | nil => rfl
  | cons item items ih =>
    simp only [arranged, List.length_cons, List.range_succ_eq_map, List.filterMap_cons,
      List.getElem?_cons_zero, List.filterMap_map]
    exact congrArg (item :: ·) ih

/-- Where every place is named once, nothing is added and nothing is lost. -/
theorem perm_arranged {items : List α} (h : places.Perm (List.range items.length)) :
    (arranged places items).Perm items := by
  have hperm : (arranged places items).Perm (arranged (List.range items.length) items) :=
    h.filterMap _
  rwa [arranged_range] at hperm

theorem getElem?_of_forall₂ {R : α → β → Prop} {items : List α} {parts : List β}
    (h : List.Forall₂ R items parts) (place : Nat) :
    Option.Rel R items[place]? parts[place]? := by
  induction h generalizing place with
  | nil => exact .none
  | cons hpart _ ih =>
    cases place with
    | zero => exact .some hpart
    | succ place => exact ih place

theorem forall₂_arranged {R : α → β → Prop} {items : List α} {parts : List β}
    (h : List.Forall₂ R items parts) (places : List Nat) :
    List.Forall₂ R (arranged places items) (arranged places parts) := by
  induction places with
  | nil => exact .nil
  | cons place places ih =>
    unfold arranged at ih ⊢
    rw [List.filterMap_cons, List.filterMap_cons]
    generalize items[place]? = item, parts[place]? = part, getElem?_of_forall₂ h place = hpart
    cases hpart with
    | none => exact ih
    | some hpart => exact .cons hpart ih

/-- What a rule can trigger is settled by which rules there are, in whatever order. -/
theorem Rule.ReadFrom.congr {rule : Rule} (hids : ∀ id, id ∈ ids ↔ id ∈ others)
    (h : rule.ReadFrom ids r) : rule.ReadFrom others r := by
  obtain ⟨items, hitems, hread⟩ := h.actions
  refine { h with actions := ⟨items, hitems, hread.imp ?_⟩ }
  rintro _ _ ⟨r, rfl, ha⟩
  exact ⟨r, rfl, { ha with passes := ha.passes.congr hids }⟩

theorem RuleSet.ids_arrange (s : RuleSet) (places : List Nat) :
    (s.arrange places).ids = arranged places s.ids :=
  (arranged_map _ _ _).symm

/-- The rules of a document may be listed in another order. -/
theorem RuleSet.ReadFrom.arrange {s : RuleSet} {items : List Value} (h : s.ReadFrom r)
    (hitems : r.member "rules" = .list items) (hplaces : places.Perm (List.range items.length)) :
    (s.arrange places).ReadFrom (r.set "rules" (.list (arranged places items))) := by
  obtain ⟨found, hfound, hread⟩ := h.rules
  obtain rfl : items = found := Value.list.inj (hitems.symm.trans hfound)
  have hcount : s.ids.length = items.length := by
    rw [hread.length_eq, RuleSet.ids, List.length_map]
  have hperm : (s.arrange places).ids.Perm s.ids := by
    rw [RuleSet.ids_arrange]
    exact perm_arranged (hcount ▸ hplaces)
  refine ⟨⟨arranged places items, by simp [Record.member], ?_⟩,
    hperm.nodup_iff.mpr h.distinct, ?_, ?_⟩
  · refine (forall₂_arranged hread places).imp ?_
    rintro _ _ ⟨r, rfl, hrule⟩
    exact ⟨r, rfl, hrule.congr fun id => hperm.mem_iff.symm⟩
  · simpa [Record.member, RuleSet.arrange] using h.policy
  · exact fun id hid => hperm.mem_iff.mpr (h.known id hid)

/-- A document that is read with its rules in another order is read as well. -/
theorem RuleSet.ReadFrom.of_arranged {s : RuleSet} {items : List Value}
    (h : s.ReadFrom (r.set "rules" (.list (arranged places items))))
    (hitems : r.member "rules" = .list items) (hplaces : places.Perm (List.range items.length)) :
    ∃ former : RuleSet, former.ReadFrom r := by
  obtain ⟨found, hfound, hread⟩ := h.rules
  obtain rfl : arranged places items = found := by
    simpa [Record.member] using hfound
  obtain ⟨rules, hrules, hperm⟩ := List.perm_comp_forall₂ (perm_arranged hplaces).symm hread
  have hids : (rules.map (·.id)).Perm s.ids := hperm.map _
  refine ⟨⟨rules, s.policy⟩, ⟨items, hitems, ?_⟩, hids.nodup_iff.mpr h.distinct, ?_, ?_⟩
  · refine hrules.imp ?_
    rintro _ _ ⟨r, rfl, hrule⟩
    exact ⟨r, rfl, hrule.congr fun id => hids.mem_iff.symm⟩
  · simpa [Record.member] using h.policy
  · exact fun id hid => hids.mem_iff.mpr (h.known id hid)

/-- With its rules in another order a document is read with its rules in that order, or it
is refused as well. -/
theorem RuleSet.ofDocument_arranged {items : List Value} (hitems : r.member "rules" = .list items)
    (hplaces : places.Perm (List.range items.length)) (source : String) :
    (RuleSet.ofDocument (.record (r.set "rules" (.list (arranged places items)))) source).toOption =
      ((RuleSet.ofDocument (.record r) source).toOption.map (·.arrange places)) := by
  cases h : RuleSet.ofDocument (.record r) source with
  | ok s =>
    obtain ⟨_, ⟨⟩, hread⟩ := ofDocument_eq_ok_iff.mp h
    rw [ofDocument_eq_ok_iff.mpr ⟨_, rfl, hread.arrange hitems hplaces⟩]
    rfl
  | error =>
    cases hother : RuleSet.ofDocument (.record (r.set "rules" (.list (arranged places items))))
        source with
    | error => rfl
    | ok s =>
      obtain ⟨_, ⟨⟩, hread⟩ := ofDocument_eq_ok_iff.mp hother
      obtain ⟨former, hformer⟩ := hread.of_arranged hitems hplaces
      rw [ofDocument_eq_ok_iff.mpr ⟨_, rfl, hformer⟩] at h
      cases h

end Arranging

namespace RuleSet

/-- An action that triggers a rule names one of those that there are. -/
theorem ruleId_of_passes {ids : List String} {a : Action} (h : a.Passes ids)
    (hkind : a.kind = .triggerRule) : ∃ id ∈ ids, a.ruleId = .text id := by
  obtain ⟨place, hplace⟩ := h
  rw [hkind, parameterProblems, problemIf_eq_nil_iff, Bool.not_eq_false'] at hplace
  unfold Action.ruleId Action.parameter
  generalize a.members.member "ruleId" = v at hplace
  cases v with
  | text id => exact ⟨id, by simpa [isOneOf] using hplace, rfl⟩
  | missing | absent | boolean | number | list | record | native | fallback => cases hplace

/-- A document that is refused has no list of rules, or it has problems, which are told. -/
theorem problems_of_refused {raw : Value} {source : String} {failure : Failure}
    (h : RuleSet.ofDocument raw source = .error failure) :
    failure = .document (.noRuleList source) ∨
      ∃ problems, problems ≠ [] ∧ failure = .document (.problems source problems) := by
  unfold ofDocument at h
  split at h
  · cases h
    exact .inl rfl
  · rename_i r items _
    dsimp only at h
    split at h
    · cases h
    · rename_i problems hother
      cases h
      refine .inr ⟨_, fun hnone => ?_, rfl⟩
      have hchecked := exact_checkEach (exact_checkRule (declaredIds items)) items
      obtain ⟨rules, hread⟩ := hchecked.problems.mp (List.append_eq_nil_iff.mp hnone).2
      exact hother rules ((hchecked.value _).mpr hread) hnone

/-- Documents are read whole or not at all. What is read has a rule for each rule of the
document and in each rule a condition for each condition and an action for each action, in
the same order; its ids are its own, and only rules that it has are triggered or listed. It
is read again as it is, and its rules could have been listed in any order. What is refused
is refused with its problems. -/
theorem documents_are_read_whole_or_refused (raw : Value) (source : String) :
    (∀ s, RuleSet.ofDocument raw source = .ok s →
      (∃ r, raw = .record r ∧ Listed (Rule.ReadFrom s.ids) (r.member "rules") s.rules) ∧
        s.ids.Nodup ∧
        (∀ rule ∈ s.rules, ∀ a ∈ rule.actions, a.kind = .triggerRule →
          ∃ id ∈ s.ids, a.ruleId = .text id) ∧
        (∀ id ∈ s.policy.manualReviewRules ++ s.policy.mergeRules, id ∈ s.ids) ∧
        ∀ another, RuleSet.ofDocument s.toValue another = .ok s) ∧
      (∀ failure, RuleSet.ofDocument raw source = .error failure →
        failure = .document (.noRuleList source) ∨
          ∃ problems, problems ≠ [] ∧ failure = .document (.problems source problems)) ∧
      ∀ r items places, raw = .record r → r.member "rules" = .list items →
        places.Perm (List.range items.length) →
          (RuleSet.ofDocument (.record (r.set "rules" (.list (arranged places items))))
              source).toOption =
            (RuleSet.ofDocument raw source).toOption.map (·.arrange places) := by
  refine ⟨fun s h => ?_, fun failure => problems_of_refused, ?_⟩
  · obtain ⟨r, hr, hread⟩ := ofDocument_eq_ok_iff.mp h
    refine ⟨⟨r, hr, hread.rules⟩, hread.distinct, ?_, hread.known,
      fun another => ofDocument_eq_ok_iff.mpr hread.again⟩
    intro rule hrule a ha
    exact ruleId_of_passes ((passes_of_document h).2 rule hrule |>.2 a ha)
  · rintro r items places rfl hitems hplaces
    exact ofDocument_arranged hitems hplaces source

def triggering (another : String) : Record Value :=
  ⟨[("type", "TRIGGER_RULE"), ("ruleId", .text another)]⟩

def relayMembers (id another : String) : Record Value :=
  ⟨[("id", .text id), ("priority", 1), ("logic", .absent), ("comment", "Not read."),
    ("action", .list [.record (triggering another)])]⟩

def relay (id another : String) : Rule :=
  { id := id
    priority := 1
    conditions := []
    logic := .text Logic.all.text
    actions := [keptAction .triggerRule (triggering another)]
    template := ""
    metadata := ∅ }

theorem relay_readFrom {ids : List String} {id another : String} (hid : id ≠ "")
    (hanother : another ∈ ids) : (relay id another).ReadFrom ids (relayMembers id another) where
  id := rfl
  named := hid
  priority := ⟨rfl, 1, rfl, by decide +kernel⟩
  logic := ⟨rfl, .all, rfl⟩
  conditions := ⟨[], rfl, .nil⟩
  actions := by
    have hpasses : Action.Passes ids ⟨.triggerRule, triggering another⟩ := by
      refine (passes_iff "").mpr ((problemIf_eq_nil_iff _ _ _).mpr ?_)
      rw [Bool.not_eq_false']
      exact List.contains_iff_mem.mpr hanother
    exact ⟨_, rfl, .cons ⟨_, rfl, rfl, .inl rfl, rfl, hpasses⟩ .nil⟩
  acts := nofun
  template := rfl
  metadata := rfl
  strategy := .inl rfl

def relayDocument : Record Value :=
  ⟨[("rules", .list [.record (relayMembers "tug" "pilot"), .record (relayMembers "pilot" "tug")]),
    ("conflictPolicy", .record ⟨[("mergeRules", .ofTexts ["pilot"])]⟩)]⟩

def relays : RuleSet :=
  ⟨[relay "tug" "pilot", relay "pilot" "tug"], ⟨.priority, [], ["pilot"]⟩⟩

theorem relays_readFrom : relays.ReadFrom relayDocument where
  rules :=
    ⟨_, rfl, .cons ⟨_, rfl, relay_readFrom (by decide) (by decide)⟩
      (.cons ⟨_, rfl, relay_readFrom (by decide) (by decide)⟩ .nil)⟩
  distinct := by decide
  policy := .given (.inr ⟨rfl, rfl⟩) (.inr ⟨rfl, rfl⟩) (.inl rfl)
  known := by decide

/-- The document is read, what was read is read again as the same, and with the two rules in
the other order they are read in that order. -/
theorem relays_are_read :
    RuleSet.ofDocument (.record relayDocument) "relays" = .ok relays ∧
      RuleSet.ofDocument relays.toValue "relays" = .ok relays ∧
      (RuleSet.ofDocument (.record (relayDocument.set "rules"
          (.list [.record (relayMembers "pilot" "tug"), .record (relayMembers "tug" "pilot")])))
        "relays").toOption = some ⟨[relay "pilot" "tug", relay "tug" "pilot"], relays.policy⟩ := by
  have hread : RuleSet.ofDocument (.record relayDocument) "relays" = .ok relays :=
    ofDocument_eq_ok_iff.mpr ⟨_, rfl, relays_readFrom⟩
  obtain ⟨hwhole, -, harranged⟩ :=
    documents_are_read_whole_or_refused (.record relayDocument) "relays"
  obtain ⟨-, -, -, -, hagain⟩ := hwhole relays hread
  have hplaces : [1, 0].Perm (List.range 2) := by decide
  have hother := harranged _ _ _ rfl rfl hplaces
  rw [hread] at hother
  exact ⟨hread, hagain "relays", hother⟩

end RuleSet

end Harbormaster
