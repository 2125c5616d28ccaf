import Harbormaster.Proofs.Action.Raised
import Harbormaster.Proofs.Tick.Stops
import Harbormaster.Proofs.Value.Plain

/-!
What a turn asks for. A rule that fires may ask for other rules: a request that is
accepted stands in the draft of the rule, among its applications and in the queue, with
the chain that leads to it. A request that is too deep halts all chaining and is the one
failure of its kind in the draft. When the rules that were asked for have their turn is
left open here.
-/

namespace Harbormaster

def RecordedFailure.isChainOverflow (f : RecordedFailure) : Bool :=
  f.name == FailureKind.ruleChainOverflow.name

theorem not_isChainOverflow_of_isLocal {failure : Failure} (h : failure.kind.isLocal = true) :
    failure.recorded.isChainOverflow = false := by
  unfold RecordedFailure.isChainOverflow Failure.recorded
  cases hkind : failure.kind with
  | unknownPath | unknownAgent | typeMismatch | invalidAction | typeError => rfl
  | unmergeableConflict | ruleChainOverflow | general =>
    rw [hkind] at h
    cases h

/-- An action that names a rule to run. -/
def Action.AsksFor (a : Action) (target : String) : Prop :=
  a.kind = .triggerRule ∧ a.ruleId = .text target

structure Application.Requests (a : Application) (target : String) : Prop where
  success : a.success = true
  kind : a.action.kind = .triggerRule
  request : a.triggerRequest = some target

namespace Stage

variable {s : Stage} {known : String → Bool} {rule : Rule} {action : Action} {a : Application}
  {target : String}

theorem triggering_of_request (happlied : (s.execute known rule action).result = .ok a)
    (hrequest : a.triggerRequest = some target) :
    a = .triggering action target ∧
      Deed.ofAction known rule action s.world = .ok (.trigger target) := by
  have hasks : a.triggerRequest ≠ none := by
    rw [hrequest]
    exact Option.some_ne_none _
  obtain ⟨named, hdeed⟩ := trigger_of_request happlied hasks
  unfold execute at happlied
  rw [hdeed] at happlied
  cases happlied
  obtain rfl : named = target := Option.some.inj hrequest
  exact ⟨rfl, hdeed⟩

/-- The rule that is asked for is the one that the action names; it has a name. -/
theorem asksFor_of_request (happlied : (s.execute known rule action).result = .ok a)
    (hrequest : a.triggerRequest = some target) : action.AsksFor target ∧ target ≠ "" := by
  obtain ⟨-, hdeed⟩ := triggering_of_request happlied hrequest
  have hkind : action.kind = .triggerRule := by
    cases Deed.of_ofAction hdeed with
    | trigger _ hasks => exact hasks
  simp only [Deed.ofAction, hkind, Deed.ofTrigger] at hdeed
  obtain ⟨v, hrequire, hdeed⟩ := ok_of_bind hdeed
  split at hdeed
  · rename_i hknown
    cases hdeed
    have hnamed := Value.text?_eq_some_iff.mp (Option.filter_eq_some_iff.mp hknown).1
    have hparameter := Deed.eq_of_require hrequire
    refine ⟨⟨hkind, hparameter.symm.trans hnamed⟩, ?_⟩
    -- an empty name would have been refused as a parameter
    rintro rfl
    unfold Action.require at hrequire
    rw [← hparameter, hnamed] at hrequire
    cases hrequire
  · cases hdeed

theorem requests_of_execute (happlied : (s.execute known rule action).result = .ok a)
    (hrequest : a.triggerRequest = some target) : a.Requests target := by
  obtain ⟨⟨hkind, -⟩, -⟩ := asksFor_of_request happlied hrequest
  obtain ⟨rfl, -⟩ := triggering_of_request happlied hrequest
  exact ⟨rfl, hkind, rfl⟩

end Stage

namespace Draft

theorem Annotates.triggeredRules {f : Draft → Draft} (hf : Annotates f) (d : Draft) :
    (f d).triggeredRules = d.triggeredRules := by
  obtain ⟨_, _, h⟩ := hf d
  rw [h]

/-- An application that succeeded is listed with the rule that it asks for. -/
theorem recordApplication_triggeredRules (d : Draft) {a : Application} (h : a.success = true) :
    (d.recordApplication a).triggeredRules = d.triggeredRules ++ (requestedRule? a).toList := by
  unfold recordApplication
  dsimp only
  rw [if_pos h]

def overflows (d : Draft) : Bool := d.failures.any (·.isChainOverflow)

theorem Annotates.overflows {f : Draft → Draft} (hf : Annotates f) (d : Draft) :
    (f d).overflows = d.overflows := by
  unfold Draft.overflows
  rw [hf.failures]

@[simp] theorem recordApplication_overflows (d : Draft) (a : Application) :
    (d.recordApplication a).overflows = d.overflows := by
  unfold overflows
  rw [recordApplication_failures]

@[simp] theorem addFailure_overflows (d : Draft) (failure : RecordedFailure) :
    (d.addFailure failure).overflows = (d.overflows || failure.isChainOverflow) := by
  unfold overflows
  rw [addFailure_failures, List.any_append, List.any_cons, List.any_nil, Bool.or_false]

end Draft

/-- Conditions raise no overflow. -/
theorem Condition.not_overflows (conditions : List Condition) (w : World) :
    ((Condition.failures conditions w).map Failure.recorded).any (·.isChainOverflow) = false := by
  rw [List.any_map, List.any_eq_false]
  intro failure hfailure
  obtain ⟨c, -, hraised⟩ := List.mem_filterMap.mp hfailure
  have hchecked : RaisesLocal (c.check w) :=
    World.raisesLocal_resolve.bind fun _ => World.raisesLocal_resolve.bind fun _ =>
      c.raisesLocal_compare
  unfold Condition.failure? at hraised
  split at hraised
  · cases hraised
  · rename_i herror
    cases hraised
    simp [not_isChainOverflow_of_isLocal (hchecked _ herror)]

/-- The place of a rule that the rule at `source` asks for. -/
def QueueEntry.below (source : QueueEntry) (target : String) : QueueEntry :=
  ⟨target, some source.ruleId, source.depth + 1, source.chain ++ [target]⟩

namespace Tick

variable {r : TickRules} {waiting : List Rule} {source : QueueEntry} {rule : Rule}
  {action : Action} {t₀ t t' : Tick} {scheduled scheduled' : List QueueEntry} {d : Draft}

theorem of_queued {limit : Nat} {target : String} {entry : QueueEntry}
    (h : t.schedule limit waiting source scheduled target = .queued entry) :
    t.overflow = none ∧ target ∈ waiting.map (·.id) ∧ target ∉ scheduled.map (·.ruleId) ∧
      source.depth + 1 ≤ limit ∧ entry = source.below target := by
  unfold schedule at h
  split at h
  · cases h
  · rename_i hopen
    split at h
    · cases h
    · rename_i haccepted
      dsimp only at h
      split at h
      · cases h
      · rename_i hdeep
        cases h
        simp only [Bool.or_eq_true, Bool.not_eq_true', not_or, Bool.not_eq_false,
          List.any_eq_true, decide_eq_true_eq] at haccepted
        refine ⟨by simpa [halted] using hopen, List.mem_map.mpr haccepted.1, ?_, not_lt.mp hdeep,
          rfl⟩
        intro hmember
        obtain ⟨entry, hentry, hid⟩ := List.mem_map.mp hmember
        exact haccepted.2 ⟨entry, hentry, hid⟩

structure Exceeds (limit : Nat) (waiting : List Rule) (source : QueueEntry)
    (overflow : ChainOverflow) : Prop where
  waits : overflow.ruleId ∈ waiting.map (·.id)
  triggeredBy : overflow.triggeredBy = source.ruleId
  chain : overflow.chain = source.chain ++ [overflow.ruleId]
  deep : limit < source.depth + 1
  depth : overflow.depth = .ofNat (source.depth + 1)
  limit : overflow.limit = .ofNat limit

theorem of_overflowed {limit : Nat} {target : String} {overflow : ChainOverflow}
    (h : t.schedule limit waiting source scheduled target = .overflowed overflow) :
    t.overflow = none ∧ Exceeds limit waiting source overflow := by
  unfold schedule at h
  split at h
  · cases h
  · rename_i hopen
    split at h
    · cases h
    · rename_i haccepted
      dsimp only at h
      split at h
      · rename_i hdeep
        cases h
        simp only [Bool.or_eq_true, Bool.not_eq_true', not_or, Bool.not_eq_false,
          List.any_eq_true, decide_eq_true_eq] at haccepted
        exact ⟨by simpa [halted] using hopen,
          ⟨List.mem_map.mpr haccepted.1, rfl, rfl, hdeep, rfl, rfl⟩⟩
      · cases h

/-- What a turn does to chaining, and whether the draft of its rule tells of it: chaining
goes on as it was, or it is halted by the first chain that gets too deep. -/
inductive Halts (limit : Nat) (waiting : List Rule) (source : QueueEntry)
    (before : Option ChainOverflow) : Option ChainOverflow → Bool → Prop where
  | never : Halts limit waiting source before before false
  | once {overflow : ChainOverflow} (hopen : before = none)
      (hexceeds : Exceeds limit waiting source overflow) :
      Halts limit waiting source before (some overflow) true

theorem Halts.eq_none {limit : Nat} {before : Option ChainOverflow} {told : Bool}
    (h : Halts limit waiting source before none told) : before = none := by
  cases h with
  | never => rfl

/-- A turn as far as it has come: the draft of the rule, behind those of the rules before it,
and the requests that were accepted. -/
structure Attends (r : TickRules) (waiting : List Rule) (source : QueueEntry) (rule : Rule)
    (t₀ t : Tick) (scheduled : List QueueEntry) (d : Draft) : Prop where
  drafts : ∃ g, Draft.AddsNotes g ∧ t.drafts = t₀.drafts.map g ++ [d]
  own : d.rule = rule
  triggeredBy : d.triggeredBy = .ofText? source.triggeredBy
  outcome : d.outcome = evaluateConditions rule.conditions rule.junction t₀.stage.world
  triggeredRules : d.triggeredRules = scheduled.map (·.ruleId)
  requests : ∀ entry ∈ scheduled, ∃ a ∈ d.applications, a.Requests entry.ruleId
  distinct : (scheduled.map (·.ruleId)).Nodup
  accepted : ∀ entry ∈ scheduled, entry = source.below entry.ruleId ∧
    entry.ruleId ∈ waiting.map (·.id) ∧ source.depth + 1 ≤ r.maxChainDepth ∧ t₀.overflow = none
  halts : Halts r.maxChainDepth waiting source t₀.overflow t.overflow d.overflows

theorem evaluated_of_addsNotes {g : Draft → Draft} (hg : Draft.AddsNotes g) (t : Tick) :
    (t.drafts.map g).map (·.rule.id) = t.evaluated := by
  rw [List.map_map]
  exact List.map_congr_left fun d _ => congrArg Rule.id (hg.annotates.rule d)

namespace Attends

theorem evaluated (h : Attends r waiting source rule t₀ t scheduled d) :
    t.evaluated = t₀.evaluated ++ [rule.id] := by
  obtain ⟨g, hg, hdrafts⟩ := h.drafts
  rw [Tick.evaluated, hdrafts, List.map_append, evaluated_of_addsNotes hg, List.map_singleton,
    h.own]

theorem visited (h : Attends r waiting source rule t₀ t scheduled d)
    (hsource : source.ruleId = rule.id) :
    t.visited = t₀.visited ++ [source.visit.recorded] := by
  obtain ⟨g, hg, hdrafts⟩ := h.drafts
  have hformer : Tick.visited { t₀ with drafts := t₀.drafts.map g } = t₀.visited :=
    visited_of_annotates hg.annotates rfl
  unfold Tick.visited at hformer ⊢
  rw [hdrafts, List.map_append, hformer, List.map_singleton, h.own, h.triggeredBy, ← hsource]
  rfl

/-- What is left of a turn while its draft is changed in some way. -/
theorem update (h : Attends r waiting source rule t₀ t scheduled d)
    (hnew : rule.id ∉ t₀.evaluated) (f : Draft → Draft) :
    ∃ g, Draft.AddsNotes g ∧ (t.updateDraft rule.id f).drafts = t₀.drafts.map g ++ [f d] := by
  obtain ⟨g, hg, hdrafts⟩ := h.drafts
  have hfresh : rule.id ∉ (t₀.drafts.map g).map (·.rule.id) := by
    rwa [evaluated_of_addsNotes hg]
  exact ⟨g, hg, drafts_updateDraft_last hdrafts (congrArg Rule.id h.own) hfresh f⟩

/-- Notes in any drafts leave a turn as far as it has come. -/
theorem addsNotes (h : Attends r waiting source rule t₀ t scheduled d) {f : Draft → Draft}
    (hf : Draft.AddsNotes f) (hdrafts : t'.drafts = t.drafts.map f)
    (hoverflow : t'.overflow = t.overflow) :
    Attends r waiting source rule t₀ t' scheduled (f d) := by
  have hnotes := hf.annotates
  obtain ⟨g, hg, hbefore⟩ := h.drafts
  refine ⟨⟨f ∘ g, hf.comp hg, ?_⟩, ?_, ?_, ?_, ?_, ?_, h.distinct, h.accepted, ?_⟩
  · rw [hdrafts, hbefore, List.map_append, List.map_map, List.map_singleton]
  · rw [hnotes.rule, h.own]
  · rw [hnotes.triggeredBy, h.triggeredBy]
  · rw [hnotes.outcome, h.outcome]
  · rw [hnotes.triggeredRules, h.triggeredRules]
  · rw [hnotes.applications]
    exact h.requests
  · rw [hnotes.overflows, hoverflow]
    exact h.halts

/-- An action that was applied is recorded in the draft of its rule, with the requests of it
that were accepted, and the rules in conflict with it get notes. -/
theorem recordApplied (h : Attends r waiting source rule t₀ t scheduled d)
    (hnew : rule.id ∉ t₀.evaluated) {a : Application} (hsuccess : a.success = true)
    (more : List QueueEntry) (hmore : (Draft.requestedRule? a).toList = more.map (·.ruleId))
    (hrequests : ∀ entry ∈ more, a.Requests entry.ruleId)
    (hdistinct : ((scheduled ++ more).map (·.ruleId)).Nodup)
    (haccepted : ∀ entry ∈ more, entry = source.below entry.ruleId ∧
      entry.ruleId ∈ waiting.map (·.id) ∧ source.depth + 1 ≤ r.maxChainDepth ∧
      t₀.overflow = none) :
    ∃ d, Attends r waiting source rule t₀ (t.recordApplied rule a) (scheduled ++ more) d := by
  have hrecorded : Attends r waiting source rule t₀
      (t.updateDraft rule.id (·.recordApplication a)) (scheduled ++ more)
      (d.recordApplication a) := by
    refine ⟨h.update hnew _, ?_, ?_, ?_, ?_, ?_, hdistinct, ?_, ?_⟩
    · rw [Draft.recordApplication_rule, h.own]
    · rw [Draft.recordApplication_triggeredBy, h.triggeredBy]
    · rw [Draft.recordApplication_outcome, h.outcome]
    · rw [Draft.recordApplication_triggeredRules d hsuccess, h.triggeredRules, hmore,
        List.map_append]
    · intro entry hentry
      rw [Draft.recordApplication_applications]
      rcases List.mem_append.mp hentry with hformer | hlast
      · obtain ⟨b, hb, hasks⟩ := h.requests entry hformer
        exact ⟨b, List.mem_append_left _ hb, hasks⟩
      · exact ⟨a, by simp, hrequests entry hlast⟩
    · intro entry hentry
      rcases List.mem_append.mp hentry with hformer | hlast
      · exact h.accepted entry hformer
      · exact haccepted entry hlast
    · rw [Draft.recordApplication_overflows]
      exact h.halts
  obtain ⟨g, hg, heq⟩ := recordApplied_addsNotes t rule a
  rw [heq]
  exact ⟨_, hrecorded.addsNotes hg rfl rfl⟩

/-- An action that asks for no rule, or in vain, leaves the requests as they are. -/
theorem recordQuiet (h : Attends r waiting source rule t₀ t scheduled d)
    (hnew : rule.id ∉ t₀.evaluated) {a : Application} (hsuccess : a.success = true)
    (hnone : a.triggerRequest = none) :
    ∃ d, Attends r waiting source rule t₀ (t.recordApplied rule a) scheduled d := by
  have hrequested : Draft.requestedRule? a = none := by simp [Draft.requestedRule?, hnone]
  have hrecorded := h.recordApplied hnew hsuccess [] (by simp [hrequested])
    (fun _ hentry => nomatch hentry) (by simpa using h.distinct) fun _ hentry => nomatch hentry
  rwa [List.append_nil] at hrecorded

/-- The action at which a rule stops is recorded without a request. -/
theorem recordFailed (h : Attends r waiting source rule t₀ t scheduled d)
    (hnew : rule.id ∉ t₀.evaluated) {failure : Failure} (t' : Tick)
    (hdrafts : t'.drafts = t.drafts)
    (hhalts : Halts r.maxChainDepth waiting source t₀.overflow t'.overflow
      (d.overflows || failure.recorded.isChainOverflow)) :
    ∃ d, Attends r waiting source rule t₀ (t'.recordFailed rule action failure) scheduled d := by
  obtain ⟨g, hg, hupdated⟩ := h.update hnew fun d =>
    (d.recordApplication (.failed action failure .absent)).addFailure failure.recorded
  refine ⟨(d.recordApplication (.failed action failure .absent)).addFailure failure.recorded,
    ⟨g, hg, ?_⟩, ?_, ?_, ?_, h.triggeredRules, ?_, h.distinct, h.accepted, ?_⟩
  · rw [← hupdated]
    unfold Tick.recordFailed updateDraft
    rw [hdrafts]
  · simpa using h.own
  · simpa [Draft.addFailure] using h.triggeredBy
  · simpa [Draft.addFailure] using h.outcome
  · intro entry hentry
    obtain ⟨b, hb, hasks⟩ := h.requests entry hentry
    exact ⟨b, by simp [hb], hasks⟩
  · rw [Draft.addFailure_overflows, Draft.recordApplication_overflows]
    exact hhalts

theorem act (h : Attends r waiting source rule t₀ t scheduled d) (hnew : rule.id ∉ t₀.evaluated)
    (hact : Act r waiting source rule action t scheduled t' scheduled') :
    ∃ d, Attends r waiting source rule t₀ t' scheduled' d := by
  have hperformed : Attends r waiting source rule t₀ (t.perform r rule action) scheduled d :=
    ⟨h.drafts, h.own, h.triggeredBy, h.outcome, h.triggeredRules, h.requests, h.distinct,
      h.accepted, h.halts⟩
  cases hact with
  | @failed failure hresult =>
    refine hperformed.recordFailed hnew _ rfl ?_
    rw [not_isChainOverflow_of_isLocal (Stage.raisesLocal_execute failure hresult), Bool.or_false]
    exact h.halts
  | @overflowed a target overflow hresult hrequest hschedule =>
    obtain ⟨hopen, hexceeds⟩ := of_overflowed hschedule
    refine hperformed.recordFailed hnew ((t.perform r rule action).halt overflow) rfl ?_
    have htold : (Course.raisedBy overflow).recorded.isChainOverflow = true := rfl
    have hcourse := h.halts
    rw [show t.overflow = none from hopen] at hcourse
    rw [show Failure.chainOverflow _ _ _ = Course.raisedBy overflow from rfl, htold, Bool.or_true]
    exact .once hcourse.eq_none hexceeds
  | applied hresult hrequest =>
    exact hperformed.recordQuiet hnew (Stage.success_of_execute hresult) hrequest
  | @queued a target entry hresult hrequest hschedule =>
    obtain ⟨hopen, hwaits, hfresh, hdeep, rfl⟩ := of_queued hschedule
    have hasks := Stage.requests_of_execute hresult hrequest
    obtain ⟨-, hname⟩ := Stage.asksFor_of_request hresult hrequest
    have hrequested : Draft.requestedRule? a = some target := by
      simp [Draft.requestedRule?, hrequest, hname]
    have hcourse := h.halts
    rw [show t.overflow = none from hopen] at hcourse
    refine hperformed.recordApplied hnew hasks.success [source.below target]
      (by simp [hrequested, QueueEntry.below]) ?_ ?_ ?_
    · intro entry hentry
      rw [List.mem_singleton.mp hentry]
      exact hasks
    · rw [List.map_append, List.nodup_append]
      refine ⟨h.distinct, List.nodup_singleton _, ?_⟩
      rintro id hid other hother rfl
      rw [List.map_singleton, List.mem_singleton] at hother
      have htarget : id = target := hother
      exact hfresh (htarget ▸ hid)
    · intro entry hentry
      rw [List.mem_singleton.mp hentry]
      exact ⟨rfl, hwaits, hdeep, hcourse.eq_none⟩
  | @ignored a target note hresult hrequest =>
    have hnote := Draft.addsNotes_addSideEffect note
    obtain ⟨g, hg, heq⟩ := (t.perform r rule action).updateDraft_addsNotes rule.id hnote
    have hnoted : Attends r waiting source rule t₀
        ((t.perform r rule action).updateDraft rule.id (·.addSideEffect note)) scheduled (g d) := by
      rw [heq]
      exact hperformed.addsNotes hg rfl rfl
    have hsuccess := Stage.success_of_execute hresult
    exact hnoted.recordQuiet hnew hsuccess rfl

/-- The turn begins with a draft that tells of the conditions only. -/
theorem begun (t : Tick) (notices : List Notice) :
    Attends r waiting source rule t
      ({ t with drafts := t.drafts ++ [(Draft.new rule t.number
        (.ofText? source.triggeredBy)).recordConditions
          (evaluateConditions rule.conditions rule.junction t.stage.world)] }.note notices) []
      ((Draft.new rule t.number (.ofText? source.triggeredBy)).recordConditions
        (evaluateConditions rule.conditions rule.junction t.stage.world)) := by
  refine ⟨⟨id, Draft.addsNotes_id, by simp [note]⟩, by simp [Draft.new], by simp [Draft.new],
    by simp, by simp [Draft.new], (fun _ hentry => nomatch hentry), List.nodup_nil,
    (fun _ hentry => nomatch hentry), ?_⟩
  have hquiet : ((Draft.new rule t.number (.ofText? source.triggeredBy)).recordConditions
      (evaluateConditions rule.conditions rule.junction t.stage.world)).overflows = false := by
    unfold Draft.overflows
    rw [Draft.recordConditions_failures, failures_evaluateConditions]
    exact Condition.not_overflows rule.conditions t.stage.world
  rw [hquiet]
  exact .never

end Attends

/-- The turn of a rule that has not had one, with what its draft tells of it. -/
theorem attends_evaluateRule (r : TickRules) (waiting : List Rule) (source : QueueEntry)
    (hnew : rule.id ∉ t.evaluated) :
    ∃ d, Attends r waiting source rule t (evaluateRule r waiting source rule t).1
        (evaluateRule r waiting source rule t).2 d ∧
      ((evaluateRule r waiting source rule t).2 ≠ [] → d.outcome.triggered = true) := by
  unfold evaluateRule
  dsimp only
  split
  · rename_i htriggered
    obtain ⟨d, hd⟩ := @applyActions_preserves r waiting source rule
      (fun t' scheduled => ∃ d, Attends r waiting source rule t t' scheduled d) rule.actions
      (fun _ _ _ _ _ _ ⟨_, hbefore⟩ hact => hbefore.act hnew hact) _ _ ⟨_, Attends.begun t _⟩
    refine ⟨d, hd, fun _ => ?_⟩
    rw [hd.outcome]
    exact htriggered
  · exact ⟨_, by simpa [note] using Attends.begun t [], fun h => absurd rfl h⟩

/-- What every turn preserves, told by the draft that it leaves, and every place that is
skipped, holds when the queue has run out. -/
theorem drain_attends {rules : List Rule} {P : List QueueEntry → Tick → Prop}
    (hdistinct : (rules.map (·.id)).Nodup) (hfresh : t.drafts = [])
    (hskip : ∀ {entry rest t}, P (entry :: rest) t → P rest (t.noteIgnored entry))
    (hturn : ∀ {waiting source rest rule t t' scheduled d},
      Attends r waiting source rule t t' scheduled d →
      (scheduled ≠ [] → d.outcome.triggered = true) → source.ruleId = rule.id →
      rule.id ∉ t.evaluated → (∀ id ∈ waiting.map (·.id), id ∉ t'.evaluated) →
      P (source :: rest) t → P (t'.queueAfter scheduled rest) t')
    (hstart : P (rules.map QueueEntry.base) t) :
    P [] (drain r rules (rules.map QueueEntry.base) t) := by
  have hend : ∃ left, Accounts rules left (drain r rules (rules.map QueueEntry.base) t) ∧
      P [] (drain r rules (rules.map QueueEntry.base) t) := by
    refine drain_preserves (P := fun waiting queue t => Accounts rules waiting t ∧ P queue t)
      ?_ ?_ ⟨by simp [Accounts, Tick.evaluated, hfresh], hstart⟩
    · rintro waiting entry rest t - ⟨haccounts, hbefore⟩
      refine ⟨?_, hskip hbefore⟩
      unfold Accounts
      rwa [evaluated_noteIgnored]
    · rintro waiting entry rest t rule hrule ⟨haccounts, hbefore⟩
      have hsource : entry.ruleId = rule.id := by simpa [eq_comm] using List.find?_some hrule
      have hnew := haccounts.not_evaluated hdistinct (List.mem_of_find?_eq_some hrule)
      obtain ⟨d, hd, hfired⟩ :=
        attends_evaluateRule r (waiting.eraseP (·.id = entry.ruleId)) entry hnew
      have hturned := haccounts.turn (r := r) hrule
      refine ⟨hturned, hturn hd hfired hsource hnew ?_ hbefore⟩
      intro id hid
      obtain ⟨other, hother, rfl⟩ := List.mem_map.mp hid
      exact hturned.not_evaluated hdistinct hother
  obtain ⟨_, -, hafter⟩ := hend
  exact hafter

end Tick

end Harbormaster
