import Mathlib.Data.List.Perm.Basic
import Harbormaster.Engine.Tick

/-!
What the turns of a tick can do. One action of a rule is taken apart into the
five ends it can come to, and the loops over actions and over the queue are
packed into one induction each, so that an invariant of a tick is shown for one
action and for one entry of the queue only.
-/

namespace Harbormaster

namespace Draft

def Annotates (f : Draft → Draft) : Prop :=
  ∀ d, ∃ conflicts sideEffects, f d = { d with conflicts, sideEffects }

theorem Annotates.rule {f : Draft → Draft} (hf : Annotates f) (d : Draft) :
    (f d).rule = d.rule := by
  obtain ⟨_, _, h⟩ := hf d
  rw [h]

theorem Annotates.triggeredBy {f : Draft → Draft} (hf : Annotates f) (d : Draft) :
    (f d).triggeredBy = d.triggeredBy := by
  obtain ⟨_, _, h⟩ := hf d
  rw [h]

theorem Annotates.outcome {f : Draft → Draft} (hf : Annotates f) (d : Draft) :
    (f d).outcome = d.outcome := by
  obtain ⟨_, _, h⟩ := hf d
  rw [h]

theorem Annotates.applications {f : Draft → Draft} (hf : Annotates f) (d : Draft) :
    (f d).applications = d.applications := by
  obtain ⟨_, _, h⟩ := hf d
  rw [h]

def AddsNotes (f : Draft → Draft) : Prop :=
  ∀ d, ∃ conflicts notes, f d = { d with conflicts, sideEffects := d.sideEffects ++ notes }

theorem AddsNotes.annotates {f : Draft → Draft} (hf : AddsNotes f) : Annotates f := by
  intro d
  obtain ⟨conflicts, notes, h⟩ := hf d
  exact ⟨conflicts, d.sideEffects ++ notes, h⟩

theorem AddsNotes.sideEffects {f : Draft → Draft} (hf : AddsNotes f) (d : Draft) :
    d.sideEffects ⊆ (f d).sideEffects := by
  obtain ⟨_, notes, h⟩ := hf d
  rw [h]
  exact List.subset_append_left _ notes

theorem addsNotes_id : AddsNotes id := fun d => ⟨d.conflicts, [], by simp⟩

theorem AddsNotes.comp {f g : Draft → Draft} (hf : AddsNotes f) (hg : AddsNotes g) :
    AddsNotes (f ∘ g) := by
  intro d
  obtain ⟨_, former, hgd⟩ := hg d
  obtain ⟨conflicts, later, hfd⟩ := hf (g d)
  refine ⟨conflicts, former ++ later, ?_⟩
  rw [Function.comp, hfd, hgd, List.append_assoc]

theorem addsNotes_ite {f : Draft → Draft} (hf : AddsNotes f) (p : Draft → Prop)
    [DecidablePred p] : AddsNotes fun d => if p d then f d else d := by
  intro d
  dsimp only
  split
  · exact hf d
  · exact addsNotes_id d

theorem addsNotes_recordConflict (id summary : String) :
    AddsNotes (·.recordConflict id summary) := by
  intro d
  dsimp only [recordConflict]
  split
  · exact addsNotes_id d
  · exact ⟨_, _, rfl⟩

theorem addsNotes_addSideEffect (text : String) : AddsNotes (·.addSideEffect text) :=
  fun _ => ⟨_, _, rfl⟩

@[simp] theorem addFailure_rule (d : Draft) (failure : RecordedFailure) :
    (d.addFailure failure).rule = d.rule := rfl

@[simp] theorem addFailure_applications (d : Draft) (failure : RecordedFailure) :
    (d.addFailure failure).applications = d.applications := rfl

@[simp] theorem recordApplication_rule (d : Draft) (a : Application) :
    (d.recordApplication a).rule = d.rule := by
  unfold recordApplication
  dsimp only
  split <;> rfl

@[simp] theorem recordApplication_triggeredBy (d : Draft) (a : Application) :
    (d.recordApplication a).triggeredBy = d.triggeredBy := by
  unfold recordApplication
  dsimp only
  split <;> rfl

@[simp] theorem recordApplication_outcome (d : Draft) (a : Application) :
    (d.recordApplication a).outcome = d.outcome := by
  unfold recordApplication
  dsimp only
  split <;> rfl

@[simp] theorem recordApplication_applications (d : Draft) (a : Application) :
    (d.recordApplication a).applications = d.applications ++ [a] := by
  unfold recordApplication
  dsimp only
  split <;> rfl

private theorem foldl_addFailure (failures : List RecordedFailure) (d : Draft) :
    ∃ sideEffects raised,
      failures.foldl addFailure d = { d with sideEffects, failures := raised } := by
  induction failures generalizing d with
  | nil => exact ⟨d.sideEffects, d.failures, rfl⟩
  | cons failure rest ih => exact ih (d.addFailure failure)

/-- Conditions leave their outcome in a draft, and the failures among them. -/
theorem recordConditions_eq (d : Draft) (outcome : ConditionsOutcome) :
    ∃ sideEffects failures, d.recordConditions outcome =
      { d with outcome, sideEffects, failures } :=
  foldl_addFailure _ { d with outcome }

section Conditions

variable (d : Draft) (outcome : ConditionsOutcome)

@[simp] theorem recordConditions_rule : (d.recordConditions outcome).rule = d.rule := by
  obtain ⟨_, _, h⟩ := d.recordConditions_eq outcome
  rw [h]

@[simp] theorem recordConditions_triggeredBy :
    (d.recordConditions outcome).triggeredBy = d.triggeredBy := by
  obtain ⟨_, _, h⟩ := d.recordConditions_eq outcome
  rw [h]

@[simp] theorem recordConditions_outcome : (d.recordConditions outcome).outcome = outcome := by
  obtain ⟨_, _, h⟩ := d.recordConditions_eq outcome
  rw [h]

@[simp] theorem recordConditions_applications :
    (d.recordConditions outcome).applications = d.applications := by
  obtain ⟨_, _, h⟩ := d.recordConditions_eq outcome
  rw [h]

@[simp] theorem recordConditions_triggeredRules :
    (d.recordConditions outcome).triggeredRules = d.triggeredRules := by
  obtain ⟨_, _, h⟩ := d.recordConditions_eq outcome
  rw [h]

end Conditions

structure Continues (f : Draft → Draft) : Prop where
  rule : ∀ d, (f d).rule = d.rule
  triggeredBy : ∀ d, (f d).triggeredBy = d.triggeredBy
  outcome : ∀ d, (f d).outcome = d.outcome

/-- What the turn of a rule begins with: the rule, who asked for it and what its conditions
come to. -/
def beginning (d : Draft) : Rule × Value × ConditionsOutcome := (d.rule, d.triggeredBy, d.outcome)

theorem Continues.beginning {f : Draft → Draft} (hf : Continues f) (d : Draft) :
    (f d).beginning = d.beginning := by
  rw [Draft.beginning, hf.rule, hf.triggeredBy, hf.outcome]
  rfl

theorem Annotates.continues {f : Draft → Draft} (hf : Annotates f) : Continues f :=
  ⟨hf.rule, hf.triggeredBy, hf.outcome⟩

theorem continues_recordApplication (a : Application) : Continues (·.recordApplication a) :=
  ⟨(recordApplication_rule · a), (recordApplication_triggeredBy · a),
    (recordApplication_outcome · a)⟩

theorem Continues.addFailure {f : Draft → Draft} (hf : Continues f) (failure : RecordedFailure) :
    Continues fun d => (f d).addFailure failure :=
  ⟨hf.rule, hf.triggeredBy, hf.outcome⟩

theorem Continues.comp {f g : Draft → Draft} (hf : Continues f) (hg : Continues g) :
    Continues (f ∘ g) :=
  ⟨fun d => (hf.rule (g d)).trans (hg.rule d),
    fun d => (hf.triggeredBy (g d)).trans (hg.triggeredBy d),
    fun d => (hf.outcome (g d)).trans (hg.outcome d)⟩

theorem continues_ite {f : Draft → Draft} (hf : Continues f) (p : Draft → Prop)
    [DecidablePred p] : Continues fun d => if p d then f d else d := by
  constructor
  · intro d
    split
    · exact hf.rule d
    · rfl
  · intro d
    split
    · exact hf.triggeredBy d
    · rfl
  · intro d
    split
    · exact hf.outcome d
    · rfl

end Draft

namespace Tick

/-- The rules that have had their turn, in order. -/
def evaluated (t : Tick) : List String := t.drafts.map (·.rule.id)

def beginnings (t : Tick) : List (Rule × Value × ConditionsOutcome) := t.drafts.map Draft.beginning

theorem evaluated_eq (t : Tick) : t.evaluated = t.beginnings.map (·.1.id) := by
  rw [beginnings, List.map_map]
  rfl

/-- What the actions of all rules have done so far, in order. -/
def applications (t : Tick) : List Application := t.drafts.flatMap (·.applications)

def told (t : Tick) : List (String × Application) :=
  t.drafts.flatMap fun d => d.applications.map fun a => (d.rule.id, a)

theorem applications_eq (t : Tick) : t.applications = t.told.map (·.2) := by
  simp [applications, told, List.map_flatMap, Function.comp_def]

theorem updateDraft_addsNotes (t : Tick) (rule : String) {f : Draft → Draft}
    (hf : Draft.AddsNotes f) :
    ∃ g, Draft.AddsNotes g ∧ t.updateDraft rule f = { t with drafts := t.drafts.map g } :=
  ⟨_, Draft.addsNotes_ite hf _, rfl⟩

private theorem foldl_recordConflict (id summary : String) (rules : List String) (t : Tick) :
    ∃ g, Draft.AddsNotes g ∧
      rules.foldl (fun t rule => t.updateDraft rule (·.recordConflict id summary)) t =
        { t with drafts := t.drafts.map g } := by
  induction rules generalizing t with
  | nil => exact ⟨_, Draft.addsNotes_id, by simp⟩
  | cons rule rest ih =>
    obtain ⟨g, hg, hfirst⟩ :=
      t.updateDraft_addsNotes rule (Draft.addsNotes_recordConflict id summary)
    obtain ⟨h, hh, hrest⟩ := ih (t.updateDraft rule (·.recordConflict id summary))
    refine ⟨h ∘ g, hh.comp hg, ?_⟩
    rw [List.foldl_cons, hrest, hfirst, List.map_map]

/-- A conflict leaves notes in the drafts of the rules that took part in it. -/
theorem attachConflict_addsNotes (t : Tick) (id : String) :
    ∃ g, Draft.AddsNotes g ∧ t.attachConflict id = { t with drafts := t.drafts.map g } := by
  unfold attachConflict
  split
  · exact ⟨_, Draft.addsNotes_id, by simp⟩
  · exact foldl_recordConflict _ _ _ t

theorem noteIgnored_addsNotes (t : Tick) (entry : QueueEntry) :
    ∃ g, Draft.AddsNotes g ∧ t.noteIgnored entry = { t with drafts := t.drafts.map g } := by
  unfold noteIgnored
  split
  · exact t.updateDraft_addsNotes _ (Draft.addsNotes_addSideEffect _)
  · exact ⟨_, Draft.addsNotes_id, by simp⟩

theorem recordApplied_addsNotes (t : Tick) (rule : Rule) (a : Application) :
    ∃ g, Draft.AddsNotes g ∧ t.recordApplied rule a =
      { t with
        drafts := (t.updateDraft rule.id (·.recordApplication a)).drafts.map g
        actionsApplied := t.actionsApplied + 1 } := by
  unfold recordApplied
  dsimp only
  split
  · exact attachConflict_addsNotes _ _
  · exact ⟨_, Draft.addsNotes_id, by simp [updateDraft]⟩

theorem noteIgnored_annotates (t : Tick) (entry : QueueEntry) :
    ∃ g, Draft.Annotates g ∧ t.noteIgnored entry = { t with drafts := t.drafts.map g } := by
  obtain ⟨g, hg, heq⟩ := t.noteIgnored_addsNotes entry
  exact ⟨g, hg.annotates, heq⟩

theorem recordApplied_annotates (t : Tick) (rule : Rule) (a : Application) :
    ∃ g, Draft.Annotates g ∧ t.recordApplied rule a =
      { t with
        drafts := (t.updateDraft rule.id (·.recordApplication a)).drafts.map g
        actionsApplied := t.actionsApplied + 1 } := by
  obtain ⟨g, hg, heq⟩ := t.recordApplied_addsNotes rule a
  exact ⟨g, hg.annotates, heq⟩

theorem updateDraft_continues (t : Tick) (rule : String) {f : Draft → Draft}
    (hf : Draft.Continues f) :
    ∃ g, Draft.Continues g ∧ (t.updateDraft rule f).drafts = t.drafts.map g :=
  ⟨_, Draft.continues_ite hf _, rfl⟩

theorem recordApplied_continues (t : Tick) (rule : Rule) (a : Application) :
    ∃ g, Draft.Continues g ∧ (t.recordApplied rule a).drafts = t.drafts.map g := by
  obtain ⟨g, hg, heq⟩ := recordApplied_annotates t rule a
  obtain ⟨h, hh, hdrafts⟩ := t.updateDraft_continues rule.id (Draft.continues_recordApplication a)
  refine ⟨g ∘ h, hg.continues.comp hh, ?_⟩
  rw [heq, hdrafts, List.map_map]

def perform (t : Tick) (r : TickRules) (rule : Rule) (action : Action) : Tick :=
  let execution := t.stage.execute r.known rule action
  { t with stage := execution.stage }.note execution.notices

/-- What is recorded of an action by what it came to: a failure where the action
failed or where its request overflowed the chain, and else what it did, with the
request and the message that are left of it. -/
inductive RecordOf (result : Except Failure Application) : Application → Prop where
  | failed {a : Application} (hfailed : a.success = false)
      (hrequest : ∀ a₀, result = .ok a₀ → a₀.triggerRequest ≠ none) : RecordOf result a
  | applied {a : Application} (hresult : result = .ok a) (triggerRequest : Option String)
      (message : String) : RecordOf result { a with triggerRequest, message }

inductive ToldOf (action : Action) (result : Except Failure Application) : Application → Prop where
  | failed (failure : Failure) (hrequest : ∀ a₀, result = .ok a₀ → a₀.triggerRequest ≠ none) :
      ToldOf action result (.failed action failure .absent)
  | applied {a : Application} (hresult : result = .ok a) (triggerRequest : Option String)
      (message : String) : ToldOf action result { a with triggerRequest, message }

theorem ToldOf.recordOf {action : Action} {result : Except Failure Application} {a : Application}
    (h : ToldOf action result a) : RecordOf result a := by
  cases h with
  | failed failure hrequest => exact .failed rfl hrequest
  | applied hresult triggerRequest message => exact .applied hresult triggerRequest message

/-- What one action can do to a tick and to the requests that were accepted. -/
inductive Act (r : TickRules) (waiting : List Rule) (source : QueueEntry) (rule : Rule)
    (action : Action) (t : Tick) (scheduled : List QueueEntry) :
    Tick → List QueueEntry → Prop where
  | failed {failure : Failure}
      (hresult : (t.stage.execute r.known rule action).result = .error failure) :
      Act r waiting source rule action t scheduled
        ((t.perform r rule action).recordFailed rule action failure) scheduled
  | applied {a : Application}
      (hresult : (t.stage.execute r.known rule action).result = .ok a)
      (hrequest : a.triggerRequest = none) :
      Act r waiting source rule action t scheduled
        ((t.perform r rule action).recordApplied rule a) scheduled
  | queued {a : Application} {target : String} {entry : QueueEntry}
      (hresult : (t.stage.execute r.known rule action).result = .ok a)
      (hrequest : a.triggerRequest = some target)
      (hschedule : (t.perform r rule action).schedule r.maxChainDepth waiting source scheduled
        target = .queued entry) :
      Act r waiting source rule action t scheduled
        ((t.perform r rule action).recordApplied rule a) (scheduled ++ [entry])
  | ignored {a : Application} {target note : String}
      (hresult : (t.stage.execute r.known rule action).result = .ok a)
      (hrequest : a.triggerRequest = some target)
      (hschedule : (t.perform r rule action).schedule r.maxChainDepth waiting source scheduled
        target = .ignored note) :
      Act r waiting source rule action t scheduled
        (((t.perform r rule action).updateDraft rule.id (·.addSideEffect note)).recordApplied rule
          { a with triggerRequest := none, message := a.message ++ " (ignored)" }) scheduled
  | overflowed {a : Application} {target : String} {overflow : ChainOverflow}
      (hresult : (t.stage.execute r.known rule action).result = .ok a)
      (hrequest : a.triggerRequest = some target)
      (hschedule : (t.perform r rule action).schedule r.maxChainDepth waiting source scheduled
        target = .overflowed overflow) :
      Act r waiting source rule action t scheduled
        (((t.perform r rule action).halt overflow).recordFailed rule action
          (.chainOverflow overflow.ruleId (.number overflow.depth) (.number overflow.limit)))
        scheduled

theorem beginnings_map {t t' : Tick} {g : Draft → Draft} (hg : Draft.Continues g)
    (h : t'.drafts = t.drafts.map g) : t'.beginnings = t.beginnings := by
  unfold beginnings
  rw [h, List.map_map]
  exact List.map_congr_left fun d _ => hg.beginning d

theorem beginnings_noteIgnored (t : Tick) (entry : QueueEntry) :
    (t.noteIgnored entry).beginnings = t.beginnings := by
  obtain ⟨g, hg, heq⟩ := t.noteIgnored_annotates entry
  exact beginnings_map hg.continues (by rw [heq])

theorem evaluated_map {t t' : Tick} {g : Draft → Draft} (hg : ∀ d, (g d).rule = d.rule)
    (h : t'.drafts = t.drafts.map g) : t'.evaluated = t.evaluated := by
  unfold evaluated
  rw [h, List.map_map]
  exact List.map_congr_left fun d _ => congrArg Rule.id (hg d)

theorem told_of_annotates {t t' : Tick} {g : Draft → Draft} (hg : Draft.Annotates g)
    (h : t'.drafts = t.drafts.map g) : t'.told = t.told := by
  unfold told
  rw [h, List.flatMap_map]
  exact List.flatMap_congr fun d _ => by rw [hg.applications, hg.rule]

theorem applications_of_annotates {t t' : Tick} {g : Draft → Draft} (hg : Draft.Annotates g)
    (h : t'.drafts = t.drafts.map g) : t'.applications = t.applications := by
  rw [applications_eq, told_of_annotates hg h, ← applications_eq]

theorem evaluated_updateDraft (t : Tick) (rule : String) {f : Draft → Draft}
    (hf : ∀ d, (f d).rule = d.rule) : (t.updateDraft rule f).evaluated = t.evaluated := by
  have hkeep : ∀ d : Draft, (if d.rule.id = rule then f d else d).rule = d.rule := by
    intro d
    split
    · exact hf d
    · rfl
  exact evaluated_map hkeep rfl

/-- The draft that the turn of a rule begins with. -/
def opening (t : Tick) (source : QueueEntry) (rule : Rule) : Draft :=
  (Draft.new rule t.number (.ofText? source.triggeredBy)).recordConditions
    (evaluateConditions rule.conditions rule.junction t.stage.world)

def opened (t : Tick) (source : QueueEntry) (rule : Rule) (notices : List Notice) : Tick :=
  { t with drafts := t.drafts ++ [t.opening source rule] }.note notices

section Queue

variable {t : Tick} {scheduled queue : List QueueEntry} {entry : QueueEntry}

theorem queueAfter_of_open (h : t.halted = false) :
    t.queueAfter scheduled queue = scheduled ++ queue := by
  simp [queueAfter, h]

/-- The turn of a rule that asks for nothing leaves the queue alone where no place in it
would be dropped. -/
theorem queueAfter_nil (h : t.halted = true → ∀ entry ∈ queue, entry.triggeredBy = none) :
    t.queueAfter [] queue = queue := by
  unfold queueAfter
  split
  · rename_i hhalted
    rw [List.filter_eq_self]
    intro entry hentry
    rw [h hhalted entry hentry]
    rfl
  · rfl

/-- A turn leaves in the queue what was there and what it asked for. -/
theorem mem_of_queueAfter (h : entry ∈ t.queueAfter scheduled queue) :
    entry ∈ scheduled ∨ entry ∈ queue := by
  unfold queueAfter at h
  split at h
  · exact .inr (List.mem_of_mem_filter h)
  · exact List.mem_append.mp h

/-- Once chaining is halted no rule is left in the queue that another one asked for. -/
theorem mem_of_queueAfter_of_halted (hhalted : t.halted = true)
    (h : entry ∈ t.queueAfter scheduled queue) : entry ∈ queue ∧ entry.triggeredBy = none := by
  unfold queueAfter at h
  rw [if_pos hhalted] at h
  simpa using List.mem_filter.mp h

end Queue

/-- While a rule has its turn its draft is the last one and the only one of its id. -/
theorem drafts_updateDraft_last {t : Tick} {former : List Draft} {d : Draft} {rule : String}
    (hdrafts : t.drafts = former ++ [d]) (hown : d.rule.id = rule)
    (hnew : rule ∉ former.map (·.rule.id)) (f : Draft → Draft) :
    (t.updateDraft rule f).drafts = former ++ [f d] := by
  have hothers : former.map (fun d => if d.rule.id = rule then f d else d) = former := by
    refine (List.map_congr_left fun other hother => if_neg ?_).trans (List.map_id former)
    intro hsame
    exact hnew (hsame ▸ List.mem_map_of_mem hother)
  unfold updateDraft
  simp only [hdrafts, List.map_append, hothers, List.map_cons, List.map_nil, hown, if_true]

/-- So what is recorded of the rule comes after everything else. -/
theorem told_updateDraft {t : Tick} {ids : List String} {rule : String} {a : Application}
    {f : Draft → Draft} (hrule : ∀ d, (f d).rule = d.rule)
    (hf : ∀ d, (f d).applications = d.applications ++ [a]) (hlast : t.evaluated = ids ++ [rule])
    (hnew : rule ∉ ids) : (t.updateDraft rule f).told = t.told ++ [(rule, a)] := by
  obtain ⟨former, last, hdrafts, hformer, hcurrent⟩ := List.map_eq_append_iff.mp hlast
  obtain ⟨d, rfl, hd⟩ := List.map_eq_singleton_iff.mp hcurrent
  unfold told
  rw [drafts_updateDraft_last hdrafts hd (hformer ▸ hnew) f, hdrafts]
  simp only [List.flatMap_append, List.flatMap_cons, List.flatMap_nil, hf, hrule, hd,
    List.map_append, List.map_cons, List.map_nil, List.append_nil, List.append_assoc]

namespace Act

variable {r : TickRules} {waiting : List Rule} {source : QueueEntry} {rule : Rule}
  {action : Action} {t t' : Tick} {scheduled scheduled' : List QueueEntry}

/-- Recording an action does not touch the stage any more. -/
theorem stage (h : Act r waiting source rule action t scheduled t' scheduled') :
    t'.stage = (t.stage.execute r.known rule action).stage := by
  cases h with
  | failed | overflowed => rfl
  | applied | queued | ignored =>
    obtain ⟨_, _, heq⟩ := recordApplied_annotates _ rule _
    rw [heq]
    rfl

theorem number (h : Act r waiting source rule action t scheduled t' scheduled') :
    t'.number = t.number := by
  cases h with
  | failed | overflowed => rfl
  | applied | queued | ignored =>
    obtain ⟨_, _, heq⟩ := recordApplied_annotates _ rule _
    rw [heq]
    rfl

/-- An action is recorded in the draft of its rule, and no rule gets a turn by it. -/
theorem continues (h : Act r waiting source rule action t scheduled t' scheduled') :
    ∃ g, Draft.Continues g ∧ t'.drafts = t.drafts.map g := by
  cases h with
  | failed | overflowed =>
    exact updateDraft_continues t rule.id ((Draft.continues_recordApplication _).addFailure _)
  | applied | queued => exact recordApplied_continues (t.perform r rule action) rule _
  | @ignored _ _ note =>
    obtain ⟨g, hg, hnoted⟩ := updateDraft_continues (t.perform r rule action) rule.id
      (Draft.addsNotes_addSideEffect note).annotates.continues
    obtain ⟨h, hh, hrecorded⟩ := recordApplied_continues
      ((t.perform r rule action).updateDraft rule.id (·.addSideEffect note)) rule _
    refine ⟨h ∘ g, hh.comp hg, ?_⟩
    rw [hrecorded, hnoted, List.map_map]
    rfl

theorem beginnings (h : Act r waiting source rule action t scheduled t' scheduled') :
    t'.beginnings = t.beginnings := by
  obtain ⟨g, hg, hdrafts⟩ := h.continues
  exact beginnings_map hg hdrafts

theorem evaluated (h : Act r waiting source rule action t scheduled t' scheduled') :
    t'.evaluated = t.evaluated := by
  rw [evaluated_eq, h.beginnings, ← evaluated_eq]

theorem told_recordFailed {t : Tick} {rule : Rule} {ids : List String}
    (hlast : t.evaluated = ids ++ [rule.id]) (hnew : rule.id ∉ ids) (action : Action)
    (failure : Failure) :
    (t.recordFailed rule action failure).told =
      t.told ++ [(rule.id, .failed action failure .absent)] :=
  told_updateDraft (fun d => by simp) (fun d => by simp) hlast hnew

theorem told_recordApplied {t : Tick} {rule : Rule} {ids : List String}
    (hlast : t.evaluated = ids ++ [rule.id]) (hnew : rule.id ∉ ids) (a : Application) :
    (t.recordApplied rule a).told = t.told ++ [(rule.id, a)] := by
  obtain ⟨g, hg, heq⟩ := recordApplied_annotates t rule a
  rw [heq, ← told_updateDraft (Draft.recordApplication_rule · a)
    (Draft.recordApplication_applications · a) hlast hnew]
  exact told_of_annotates hg rfl

/-- One action leaves one application behind, under the id of its rule. -/
theorem told (h : Act r waiting source rule action t scheduled t' scheduled')
    {ids : List String} (hlast : t.evaluated = ids ++ [rule.id]) (hnew : rule.id ∉ ids) :
    ∃ a, t'.told = t.told ++ [(rule.id, a)] ∧
      ToldOf action (t.stage.execute r.known rule action).result a := by
  cases h with
  | @failed failure hresult =>
    refine ⟨_, told_recordFailed (t := t.perform r rule action) hlast hnew _ _,
      .failed failure ?_⟩
    intro a₀ h
    rw [hresult] at h
    cases h
  | @overflowed _ _ overflow hresult hrequest =>
    refine ⟨_, told_recordFailed (t := (t.perform r rule action).halt overflow) hlast hnew _ _,
      .failed _ ?_⟩
    intro a₀ h
    rw [hresult] at h
    cases h
    rw [hrequest]
    exact Option.some_ne_none _
  | @applied a hresult =>
    exact ⟨a, told_recordApplied (t := t.perform r rule action) hlast hnew a,
      .applied hresult a.triggerRequest a.message⟩
  | @queued a _ _ hresult =>
    exact ⟨a, told_recordApplied (t := t.perform r rule action) hlast hnew a,
      .applied hresult a.triggerRequest a.message⟩
  | @ignored a _ note hresult =>
    have hnotes := Draft.addsNotes_addSideEffect note
    obtain ⟨g, hg, heq⟩ := (t.perform r rule action).updateDraft_addsNotes rule.id hnotes
    have hlast' : ((t.perform r rule action).updateDraft rule.id
        (·.addSideEffect note)).evaluated = ids ++ [rule.id] :=
      (evaluated_updateDraft _ _ hnotes.annotates.rule).trans hlast
    have hsame : ((t.perform r rule action).updateDraft rule.id
        (·.addSideEffect note)).told = t.told := by
      rw [heq]
      exact told_of_annotates hg.annotates rfl
    refine ⟨_, ?_, .applied hresult none (a.message ++ " (ignored)")⟩
    rw [told_recordApplied hlast' hnew, hsame]

theorem applications (h : Act r waiting source rule action t scheduled t' scheduled')
    {ids : List String} (hlast : t.evaluated = ids ++ [rule.id]) (hnew : rule.id ∉ ids) :
    ∃ a, t'.applications = t.applications ++ [a] ∧
      RecordOf (t.stage.execute r.known rule action).result a := by
  obtain ⟨a, htold, ha⟩ := h.told hlast hnew
  refine ⟨a, ?_, ha.recordOf⟩
  rw [applications_eq, htold, List.map_append, ← applications_eq]
  rfl

end Act

section Loops

variable {r : TickRules} {waiting : List Rule} {source : QueueEntry} {rule : Rule}

/-- What every action of a rule preserves, its whole list of actions preserves. -/
theorem applyActions_preserves {P : Tick → List QueueEntry → Prop} {actions : List Action}
    (hact : ∀ action ∈ actions, ∀ {t scheduled t' scheduled'}, P t scheduled →
      Act r waiting source rule action t scheduled t' scheduled' → P t' scheduled')
    {t : Tick} {scheduled : List QueueEntry} (hstart : P t scheduled) :
    P (applyActions r waiting source rule actions t scheduled).1
      (applyActions r waiting source rule actions t scheduled).2 := by
  induction actions generalizing t scheduled with
  | nil => exact hstart
  | cons action rest ih =>
    have hhead : ∀ {t' scheduled'}, Act r waiting source rule action t scheduled t' scheduled' →
        P t' scheduled' := hact action List.mem_cons_self hstart
    have hrest : ∀ action ∈ rest, ∀ {t scheduled t' scheduled'}, P t scheduled →
        Act r waiting source rule action t scheduled t' scheduled' → P t' scheduled' :=
      fun action member => hact action (List.mem_cons_of_mem _ member)
    simp only [applyActions]
    split
    · rename_i failure hresult
      exact hhead (.failed hresult)
    · rename_i a hresult
      split
      · rename_i hrequest
        exact ih hrest (hhead (.applied hresult hrequest))
      · rename_i target hrequest
        split
        · rename_i entry hschedule
          exact ih hrest (hhead (.queued hresult hrequest hschedule))
        · rename_i note hschedule
          exact ih hrest (hhead (.ignored hresult hrequest hschedule))
        · rename_i overflow hschedule
          exact hhead (.overflowed hresult hrequest hschedule)

/-- What holds once the draft of a rule is opened, and is preserved by its actions,
holds after its turn. -/
theorem evaluateRule_preserves_of_opened {P : Tick → List QueueEntry → Prop} {t : Tick}
    (hstart : ∀ notices, P (t.opened source rule notices) [])
    (hact : ∀ action ∈ rule.actions, ∀ {t scheduled t' scheduled'}, P t scheduled →
      Act r waiting source rule action t scheduled t' scheduled' → P t' scheduled') :
    P (evaluateRule r waiting source rule t).1 (evaluateRule r waiting source rule t).2 := by
  unfold evaluateRule
  dsimp only
  split
  · exact applyActions_preserves hact (hstart _)
  · simpa [opened, opening, note] using hstart []

/-- In most cases nothing has to be known of the draft but that it is new. -/
theorem evaluateRule_preserves {P : Tick → List QueueEntry → Prop} {t : Tick}
    (hstart : ∀ (draft : Draft) notices, draft.rule = rule → draft.applications = [] →
      P ({ t with drafts := t.drafts ++ [draft] }.note notices) [])
    (hact : ∀ action ∈ rule.actions, ∀ {t scheduled t' scheduled'}, P t scheduled →
      Act r waiting source rule action t scheduled t' scheduled' → P t' scheduled') :
    P (evaluateRule r waiting source rule t).1 (evaluateRule r waiting source rule t).2 :=
  evaluateRule_preserves_of_opened
    (fun notices => hstart (t.opening source rule) notices (by simp [opening, Draft.new])
      (by simp [opening, Draft.new])) hact

/-- The turn of a rule adds what it began with, whatever comes of it. -/
theorem beginnings_evaluateRule (r : TickRules) (waiting : List Rule) (source : QueueEntry)
    (rule : Rule) (t : Tick) :
    (evaluateRule r waiting source rule t).1.beginnings = t.beginnings ++
      [(rule, .ofText? source.triggeredBy,
        evaluateConditions rule.conditions rule.junction t.stage.world)] := by
  unfold evaluateRule
  dsimp only
  generalize evaluateConditions rule.conditions rule.junction t.stage.world = outcome
  have hbegun : ∀ notices, (Tick.note { t with drafts := t.drafts ++
      [(Draft.new rule t.number (.ofText? source.triggeredBy)).recordConditions outcome] }
        notices).beginnings = t.beginnings ++ [(rule, .ofText? source.triggeredBy, outcome)] := by
    intro notices
    simp [beginnings, Draft.beginning, note, Draft.new]
  split
  · exact applyActions_preserves (P := fun t' _ => t'.beginnings = _)
      (fun _ _ _ _ _ _ hbefore hact => hact.beginnings.trans hbefore) (hbegun _)
  · simpa [note] using hbegun []

/-- What every entry of the queue preserves holds when the queue has run out. -/
theorem drain_preserves {P : List Rule → List QueueEntry → Tick → Prop}
    (hskip : ∀ {waiting entry rest t}, waiting.find? (·.id = entry.ruleId) = none →
      P waiting (entry :: rest) t → P waiting rest (t.noteIgnored entry))
    (hturn : ∀ {waiting entry rest t rule}, waiting.find? (·.id = entry.ruleId) = some rule →
      P waiting (entry :: rest) t →
      P (waiting.eraseP (·.id = entry.ruleId))
        ((evaluateRule r (waiting.eraseP (·.id = entry.ruleId)) entry rule t).1.queueAfter
          (evaluateRule r (waiting.eraseP (·.id = entry.ruleId)) entry rule t).2 rest)
        (evaluateRule r (waiting.eraseP (·.id = entry.ruleId)) entry rule t).1)
    {queue : List QueueEntry} {t : Tick} (hstart : P waiting queue t) :
    ∃ left, P left [] (drain r waiting queue t) := by
  fun_induction drain r waiting queue t with
  | case1 waiting t => exact ⟨waiting, hstart⟩
  | case2 waiting t entry rest hfound ih => exact ih (hskip hfound hstart)
  | case3 waiting t entry rest rule hfound left t' scheduled hturned ih =>
    have hnext := hturn hfound hstart
    rw [hturned] at hnext
    exact ih hnext

end Loops

end Tick

end Harbormaster
