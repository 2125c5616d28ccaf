import Harbormaster.Proofs.Condition.Settling
import Harbormaster.Proofs.Tick.Stops

/-!
What drafts account for. A draft lists what its rule has done, action by action; nothing
that is not listed has been done, and what is listed has been counted. The actions of a
rule are followed here one at a time, with the stage, the last draft and both counters
moving together, so that the books balance after every action and not only in the end.
What the actions do to the world is not looked at.
-/

namespace Harbormaster

inductive Application.Leave : List Action → List Application → Prop where
  | through : Leave [] []
  | applied {action : Action} {rest : List Action} {a : Application} {later : List Application}
      (haction : a.action = action) (hsuccess : a.success = true) (hrest : Leave rest later) :
      Leave (action :: rest) (a :: later)
  | stopped {action : Action} {rest : List Action} {a : Application}
      (haction : a.action = action) (hfailed : a.success = false) : Leave (action :: rest) [a]

def Application.StopAtFailure (applications : List Application) : Prop :=
  (∀ a ∈ applications, a.success = true) ∨
    ∃ former last, applications = former ++ [last] ∧ (∀ a ∈ former, a.success = true) ∧
      last.success = false

namespace Application.Leave

variable {actions : List Action} {applications : List Application}

theorem inOrder (h : Leave actions applications) :
    applications.map (·.action) <+: actions := by
  induction h with
  | through => exact List.prefix_rfl
  | applied haction _ _ ih =>
    rw [List.map_cons, haction]
    exact List.cons_prefix_cons.mpr ⟨rfl, ih⟩
  | @stopped action rest a haction _ =>
    rw [List.map_singleton, haction]
    exact List.cons_prefix_cons.mpr ⟨rfl, List.nil_prefix⟩

theorem stopAtFailure (h : Leave actions applications) : StopAtFailure applications := by
  induction h with
  | through => exact .inl fun _ ha => (List.not_mem_nil ha).elim
  | @applied _ _ a _ _ hsuccess _ ih =>
    rcases ih with hall | ⟨former, last, rfl, hformer, hlast⟩
    · exact .inl (List.forall_mem_cons.mpr ⟨hsuccess, hall⟩)
    · exact .inr ⟨a :: former, last, rfl, List.forall_mem_cons.mpr ⟨hsuccess, hformer⟩, hlast⟩
  | @stopped _ _ a _ hfailed =>
    exact .inr ⟨[], a, rfl, fun _ ha => (List.not_mem_nil ha).elim, hfailed⟩

theorem eq_nil_iff (h : Leave actions applications) : applications = [] ↔ actions = [] := by
  cases h with
  | through => exact ⟨fun _ => rfl, fun _ => rfl⟩
  | applied | stopped =>
    exact ⟨fun h => absurd h (List.cons_ne_nil _ _), fun h => absurd h (List.cons_ne_nil _ _)⟩

/-- Where nothing fails, no action is left out. -/
theorem all_of_success (h : Leave actions applications)
    (hsuccess : ∀ a ∈ applications, a.success = true) :
    applications.map (·.action) = actions := by
  induction h with
  | through => rfl
  | applied haction _ _ ih =>
    obtain ⟨-, hlater⟩ := List.forall_mem_cons.mp hsuccess
    rw [List.map_cons, haction, ih hlater]
  | stopped _ hfailed =>
    rw [hsuccess _ List.mem_cons_self] at hfailed
    cases hfailed

end Application.Leave

structure Performance where
  rule : Rule
  outcome : ConditionsOutcome
  applications : List Application

namespace Performance

/-- The actions that have been executed. -/
def steps (p : Performance) : List (Rule × Action) := p.applications.map fun a => (p.rule, a.action)

structure Proper (p : Performance) : Prop where
  conditions : ∃ w, p.outcome = evaluateConditions p.rule.conditions p.rule.junction w
  quiet : p.outcome.triggered = false → p.applications = []
  fired : p.outcome.triggered = true → Application.Leave p.rule.actions p.applications

variable {p : Performance}

theorem Proper.inOrder (h : p.Proper) : p.applications.map (·.action) <+: p.rule.actions := by
  cases htriggered : p.outcome.triggered with
  | true => exact (h.fired htriggered).inOrder
  | false =>
    rw [h.quiet htriggered]
    exact List.nil_prefix

theorem Proper.stopAtFailure (h : p.Proper) : Application.StopAtFailure p.applications := by
  cases htriggered : p.outcome.triggered with
  | true => exact (h.fired htriggered).stopAtFailure
  | false =>
    rw [h.quiet htriggered]
    exact .inl fun _ ha => (List.not_mem_nil ha).elim

theorem Proper.eq_nil_iff (h : p.Proper) :
    p.applications = [] ↔ p.outcome.triggered = false ∨ p.rule.actions = [] := by
  cases htriggered : p.outcome.triggered with
  | true => simpa using (h.fired htriggered).eq_nil_iff
  | false => simpa using h.quiet htriggered

theorem Proper.not_triggered (h : p.Proper) {v : Evaluation} (hv : v ∈ p.outcome.evaluations)
    (hfailure : v.failure ≠ none) : p.outcome.triggered = false := by
  obtain ⟨w, houtcome⟩ := h.conditions
  rw [houtcome] at hv ⊢
  exact triggered_eq_false_of_failure hv hfailure

end Performance

def Draft.performance (d : Draft) : Performance := ⟨d.rule, d.outcome, d.applications⟩

theorem Draft.Annotates.performance {g : Draft → Draft} (hg : Draft.Annotates g) (d : Draft) :
    (g d).performance = d.performance := by
  rw [Draft.performance, hg.rule, hg.outcome, hg.applications]
  rfl

namespace Tick

variable {r : TickRules} {rules waiting : List Rule} {source : QueueEntry} {rule : Rule}
  {action : Action} {t t' t'' : Tick} {scheduled : List QueueEntry} {a : Application}
  {applications later : List Application} {first : Stage}

def performances (t : Tick) : List Performance := t.drafts.map Draft.performance

theorem performances_of_annotates {g : Draft → Draft} (hg : Draft.Annotates g)
    (h : t'.drafts = t.drafts.map g) : t'.performances = t.performances := by
  unfold performances
  rw [h, List.map_map]
  exact List.map_congr_left fun d _ => hg.performance d

theorem applications_eq_flatMap (t : Tick) :
    t.applications = t.performances.flatMap (·.applications) := by
  rw [performances, List.flatMap_map]
  rfl

structure Adds (r : TickRules) (rule : Rule) (t : Tick) (applications : List Application)
    (t' : Tick) : Prop where
  drafts : ∀ former outcome earlier, t.performances = former ++ [⟨rule, outcome, earlier⟩] →
    (∀ p ∈ former, p.rule.id ≠ rule.id) →
    t'.performances = former ++ [⟨rule, outcome, earlier ++ applications⟩]
  stage : t'.stage = t.stage.after r.known (applications.map fun a => (rule, a.action))
  applied : t'.actionsApplied = t.actionsApplied + applications.countP (·.success)
  failed : t'.actionsFailed = t.actionsFailed + applications.countP (!·.success)

theorem Adds.nothing (r : TickRules) (rule : Rule) (t : Tick) : Adds r rule t [] t :=
  ⟨fun _ _ _ h _ => by rw [h, List.append_nil], rfl, rfl, rfl⟩

theorem Adds.trans (hfirst : Adds r rule t applications t') (hnext : Adds r rule t' later t'') :
    Adds r rule t (applications ++ later) t'' := by
  refine ⟨?_, ?_, ?_, ?_⟩
  · intro former outcome earlier hlast hnew
    rw [hnext.drafts _ _ _ (hfirst.drafts _ _ _ hlast hnew) hnew, List.append_assoc]
  · rw [hnext.stage, hfirst.stage, List.map_append, Stage.after_append]
  · rw [hnext.applied, hfirst.applied, List.countP_append, Nat.add_assoc]
  · rw [hnext.failed, hfirst.failed, List.countP_append, Nat.add_assoc]

/-- While a rule has its turn its draft is the last one and the only one of its id. -/
theorem performances_updateDraft {f : Draft → Draft} {former : List Performance}
    {outcome : ConditionsOutcome} {earlier : List Application}
    (hf : ∀ d, (f d).performance = ⟨d.rule, d.outcome, d.applications ++ [a]⟩)
    (hlast : t.performances = former ++ [⟨rule, outcome, earlier⟩])
    (hnew : ∀ p ∈ former, p.rule.id ≠ rule.id) :
    (t.updateDraft rule.id f).performances = former ++ [⟨rule, outcome, earlier ++ [a]⟩] := by
  obtain ⟨drafts, last, hdrafts, hformer, hcurrent⟩ := List.map_eq_append_iff.mp hlast
  obtain ⟨d, rfl, hd⟩ := List.map_eq_singleton_iff.mp hcurrent
  obtain ⟨hown, houtcome, hearlier⟩ := Performance.mk.inj hd
  have hfresh : rule.id ∉ drafts.map (·.rule.id) := by
    intro hmember
    obtain ⟨other, hother, hsame⟩ := List.mem_map.mp hmember
    exact hnew other.performance (hformer ▸ List.mem_map_of_mem hother) hsame
  unfold performances
  rw [drafts_updateDraft_last hdrafts (congrArg Rule.id hown) hfresh f, List.map_append, hformer,
    List.map_singleton, hf, hown, houtcome, hearlier]

/-- The action at which a rule stops is listed and counted as failed. -/
theorem adds_recordFailed (hbefore : t'.performances = t.performances)
    (hstage : t'.stage = (t.stage.execute r.known rule action).stage)
    (happlied : t'.actionsApplied = t.actionsApplied)
    (hfailed : t'.actionsFailed = t.actionsFailed) (failure : Failure) :
    Adds r rule t [.failed action failure .absent] (t'.recordFailed rule action failure) := by
  refine ⟨?_, hstage, happlied, congrArg (· + 1) hfailed⟩
  intro former outcome earlier hlast hnew
  refine performances_updateDraft (f := fun d =>
    (d.recordApplication (.failed action failure .absent)).addFailure failure.recorded)
    (fun d => ?_) (hbefore.trans hlast) hnew
  simp [Draft.performance, Draft.addFailure]

/-- An action that was applied is listed and counted as such. -/
theorem adds_recordApplied (hbefore : t'.performances = t.performances)
    (hstage : t'.stage = (t.stage.execute r.known rule a.action).stage)
    (happlied : t'.actionsApplied = t.actionsApplied)
    (hfailed : t'.actionsFailed = t.actionsFailed) (hsuccess : a.success = true) :
    Adds r rule t [a] (t'.recordApplied rule a) := by
  obtain ⟨g, hg, heq⟩ := recordApplied_annotates t' rule a
  rw [heq]
  refine ⟨?_, hstage, ?_, ?_⟩
  · intro former outcome earlier hlast hnew
    rw [← performances_updateDraft (f := (·.recordApplication a)) (fun d => ?_)
      (hbefore.trans hlast) hnew]
    · exact performances_of_annotates hg rfl
    · simp [Draft.performance]
  · simp [happlied, hsuccess]
  · simpa [hsuccess] using hfailed

/-- The actions of a rule add what they leave behind. -/
theorem adds_applyActions (waiting : List Rule) (source : QueueEntry) (actions : List Action)
    (t : Tick) (scheduled : List QueueEntry) :
    ∃ applications, Application.Leave actions applications ∧
      Adds r rule t applications (applyActions r waiting source rule actions t scheduled).1 := by
  induction actions generalizing t scheduled with
  | nil => exact ⟨[], .through, .nothing r rule t⟩
  | cons action rest ih =>
    have hstopped : ∀ {t' : Tick} (failure : Failure), t'.performances = t.performances →
        t'.stage = (t.perform r rule action).stage → t'.actionsApplied = t.actionsApplied →
        t'.actionsFailed = t.actionsFailed → ∃ applications,
          Application.Leave (action :: rest) applications ∧
            Adds r rule t applications (t'.recordFailed rule action failure) :=
      fun failure hbefore hstage happlied hfailed =>
        ⟨_, .stopped rfl rfl, adds_recordFailed hbefore hstage happlied hfailed failure⟩
    -- a request that is ignored changes the application, but neither its action nor its success
    have happlied : ∀ {t' : Tick} {a : Application} (scheduled' : List QueueEntry),
        a.action = action ∧ a.success = true → t'.performances = t.performances →
        t'.stage = (t.perform r rule action).stage → t'.actionsApplied = t.actionsApplied →
        t'.actionsFailed = t.actionsFailed → ∃ applications,
          Application.Leave (action :: rest) applications ∧ Adds r rule t applications
            (applyActions r waiting source rule rest (t'.recordApplied rule a) scheduled').1 := by
      rintro t' a scheduled' ⟨rfl, hsuccess⟩ hbefore hstage happlied hfailed
      obtain ⟨later, hleave, hadds⟩ := ih (t'.recordApplied rule a) scheduled'
      exact ⟨a :: later, .applied rfl hsuccess hleave,
        (adds_recordApplied hbefore hstage happlied hfailed hsuccess).trans hadds⟩
    rw [applyActions_cons]
    split
    · rename_i failure hresult
      exact hstopped failure rfl rfl rfl rfl
    · rename_i a hresult
      have hown := Stage.application_of_execute hresult
      split
      · exact happlied _ hown rfl rfl rfl rfl
      · rename_i target hrequest
        split
        · exact happlied _ hown rfl rfl rfl rfl
        · rename_i note hschedule
          obtain ⟨g, hg, heq⟩ := (t.perform r rule action).updateDraft_addsNotes rule.id
            (Draft.addsNotes_addSideEffect note)
          rw [heq]
          exact happlied _ hown (performances_of_annotates hg.annotates rfl) rfl rfl rfl
        · exact hstopped _ rfl rfl rfl rfl

/-- The books of a tick that began with `first`: whatever has been done since is listed in
a draft, in order, and counted. -/
structure Balanced (r : TickRules) (first : Stage) (t : Tick) : Prop where
  proper : ∀ p ∈ t.performances, p.Proper
  stage : t.stage = first.after r.known (t.performances.flatMap Performance.steps)
  applied : t.actionsApplied = t.applications.countP (·.success)
  failed : t.actionsFailed = t.applications.countP (!·.success)

theorem Balanced.annotates (h : Balanced r first t) {g : Draft → Draft} (hg : Draft.Annotates g) :
    Balanced r first { t with drafts := t.drafts.map g } := by
  have hsame : performances { t with drafts := t.drafts.map g } = t.performances :=
    performances_of_annotates hg rfl
  have happlications : applications { t with drafts := t.drafts.map g } = t.applications :=
    applications_of_annotates hg rfl
  refine ⟨?_, ?_, ?_, ?_⟩
  · rw [hsame]
    exact h.proper
  · rw [hsame]
    exact h.stage
  · rw [happlications]
    exact h.applied
  · rw [happlications]
    exact h.failed

/-- A turn is listed as one performance. -/
theorem performances_opened (t : Tick) (source : QueueEntry) (rule : Rule)
    (notices : List Notice) :
    (t.opened source rule notices).performances = t.performances ++
      [⟨rule, evaluateConditions rule.conditions rule.junction t.stage.world, []⟩] := by
  simp [performances, opened, opening, note, Draft.performance, Draft.new]

theorem Balanced.turn (h : Balanced r first t) (hnew : rule.id ∉ t.evaluated)
    (waiting : List Rule) (source : QueueEntry) :
    Balanced r first (evaluateRule r waiting source rule t).1 ∧
      (evaluateRule r waiting source rule t).1.performances.map (·.rule) =
        t.performances.map (·.rule) ++ [rule] := by
  have hformer : ∀ p ∈ t.performances, p.rule.id ≠ rule.id := by
    intro p hp hsame
    obtain ⟨d, hd, rfl⟩ := List.mem_map.mp hp
    exact hnew (hsame ▸ List.mem_map_of_mem (f := (·.rule.id)) hd)
  -- a turn adds the applications of one proper performance to the tick that it opened
  have hturn : ∀ {t' : Tick} (notices : List Notice) (applications : List Application),
      Performance.Proper ⟨rule, evaluateConditions rule.conditions rule.junction t.stage.world,
        applications⟩ → Adds r rule (t.opened source rule notices) applications t' →
      Balanced r first t' ∧
        t'.performances.map (·.rule) = t.performances.map (·.rule) ++ [rule] := by
    intro t' notices applications hproper hadds
    have hlist := hadds.drafts _ _ _ (t.performances_opened source rule notices) hformer
    rw [List.nil_append] at hlist
    have hall : t'.applications = t.applications ++ applications := by
      rw [applications_eq_flatMap, hlist, List.flatMap_append, ← applications_eq_flatMap]
      simp
    refine ⟨⟨?_, ?_, ?_, ?_⟩, by rw [hlist, List.map_append]; rfl⟩
    · rw [hlist]
      intro p hp
      rcases List.mem_append.mp hp with hold | hlast
      · exact h.proper p hold
      · rw [List.mem_singleton.mp hlast]
        exact hproper
    · have hbegun : (t.opened source rule notices).stage = t.stage := rfl
      rw [hadds.stage, hbegun, h.stage, hlist, List.flatMap_append, Stage.after_append,
        List.flatMap_singleton, ← h.stage]
      rfl
    · have hbegun : (t.opened source rule notices).actionsApplied = t.actionsApplied := rfl
      rw [hadds.applied, hbegun, h.applied, hall, List.countP_append]
    · have hbegun : (t.opened source rule notices).actionsFailed = t.actionsFailed := rfl
      rw [hadds.failed, hbegun, h.failed, hall, List.countP_append]
  unfold evaluateRule
  dsimp only
  split
  · rename_i htriggered
    obtain ⟨applications, hleave, hadds⟩ := @adds_applyActions r rule waiting
      source rule.actions (t.opened source rule _) []
    refine hturn _ applications ⟨⟨_, rfl⟩, ?_, fun _ => hleave⟩ hadds
    intro hquiet
    rw [htriggered] at hquiet
    cases hquiet
  · rename_i hquiet
    refine hturn [] [] ⟨⟨_, rfl⟩, fun _ => rfl, fun hfires => absurd hfires hquiet⟩ ?_
    simpa [opened, opening, note] using Adds.nothing r rule (t.opened source rule [])

structure BalancedFor (r : TickRules) (rules : List Rule) (first : Stage) (waiting : List Rule)
    (t : Tick) : Prop where
  balanced : Balanced r first t
  rules : (t.performances.map (·.rule) ++ waiting).Perm rules

theorem evaluated_eq_performances (t : Tick) :
    t.evaluated = (t.performances.map (·.rule)).map (·.id) := by
  simp [evaluated, performances, Draft.performance, Function.comp_def]

theorem BalancedFor.accounts (h : BalancedFor r rules first waiting t) :
    Accounts rules waiting t := by
  have hperm := h.rules.map (·.id)
  rwa [List.map_append, ← evaluated_eq_performances] at hperm

theorem BalancedFor.turn {entry : QueueEntry} (hdistinct : (rules.map (·.id)).Nodup)
    (hrule : waiting.find? (·.id = entry.ruleId) = some rule)
    (h : BalancedFor r rules first waiting t) :
    BalancedFor r rules first (waiting.eraseP (·.id = entry.ruleId))
      (evaluateRule r (waiting.eraseP (·.id = entry.ruleId)) entry rule t).1 := by
  have hnew := h.accounts.not_evaluated hdistinct (List.mem_of_find?_eq_some hrule)
  obtain ⟨hbalanced, hlisted⟩ := h.balanced.turn hnew
    (waiting.eraseP (·.id = entry.ruleId)) entry
  refine ⟨hbalanced, ?_⟩
  rw [hlisted, List.append_assoc]
  exact ((perm_cons_eraseP hrule).symm.append_left _).trans h.rules

/-- When the queue has run out the books balance, and every rule has had its turn. -/
theorem balanced_drain (hdistinct : (rules.map (·.id)).Nodup) (hfresh : t.drafts = [])
    (happlied : t.actionsApplied = 0) (hfailed : t.actionsFailed = 0) :
    Balanced r t.stage (drain r rules (rules.map QueueEntry.base) t) ∧
      ((drain r rules (rules.map QueueEntry.base) t).performances.map (·.rule)).Perm rules := by
  have hend : ∃ left, BalancedFor r rules t.stage left
      (drain r rules (rules.map QueueEntry.base) t) := by
    refine drain_preserves (P := fun waiting _ t' => BalancedFor r rules t.stage waiting t')
      ?_ ?_ ?_
    · rintro waiting entry _ t' _ ⟨hbalanced, hrules⟩
      obtain ⟨g, hg, heq⟩ := t'.noteIgnored_annotates entry
      rw [heq]
      refine ⟨hbalanced.annotates hg, ?_⟩
      rwa [performances_of_annotates hg rfl]
    · exact fun hrule hbefore => hbefore.turn hdistinct hrule
    · refine ⟨⟨?_, ?_, ?_, ?_⟩, ?_⟩
      · simp [performances, hfresh]
      · simp [performances, hfresh, Stage.after]
      · simp [applications, hfresh, happlied]
      · simp [applications, hfresh, hfailed]
      · simp [performances, hfresh]
  obtain ⟨left, hbalanced, hrules⟩ := hend
  have hnone : left = [] := by
    have hevaluated := (drain_evaluated (r := r) hdistinct t hfresh).length_eq
    have hlength := hrules.length_eq
    simp only [evaluated_eq_performances, List.length_map, List.length_append] at hevaluated hlength
    exact List.length_eq_zero_iff.mp (by omega)
  rw [hnone, List.append_nil] at hrules
  exact ⟨hbalanced, hrules⟩

end Tick

end Harbormaster
