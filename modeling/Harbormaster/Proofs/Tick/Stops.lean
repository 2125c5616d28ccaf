import Harbormaster.Proofs.Tick.Coverage
import Harbormaster.Proofs.Tick.Failures
import Harbormaster.Proofs.Tick.Steps

/-!
Where rules stop. An application that is recorded as failed stands for an action of its
rule that failed, or that asked for a chain too deep, on a stage that the tick came
through. Conditions are not looked at here, and which of the stages it was is left open.
-/

namespace Harbormaster

namespace Stage

variable {s : Stage} {r : TickRules} {rule : Rule} {action : Action} {a : Application}

inductive Stops (s : Stage) (r : TickRules) (rule : Rule) (action : Action) : Failure → Prop where
  | failed {failure : Failure}
      (hresult : (s.execute r.known rule action).result = .error failure) :
      Stops s r rule action failure
  | overflowed {a : Application} {target : String} {overflow : ChainOverflow}
      (hresult : (s.execute r.known rule action).result = .ok a)
      (hrequest : a.triggerRequest = some target)
      (hdeep : Course.TooDeep r.maxChainDepth rule target overflow) :
      Stops s r rule action (Course.raisedBy overflow)

/-- The stages that actions of some rules lead to. -/
def Reaches (first : Stage) (r : TickRules) (rules : List Rule) (s : Stage) : Prop :=
  ∃ steps : List (Rule × Action), (∀ step ∈ steps, step.1 ∈ rules ∧ step.2 ∈ step.1.actions) ∧
    s = first.after r.known steps

theorem Reaches.execute {first : Stage} {rules : List Rule} (h : first.Reaches r rules s)
    (hrule : rule ∈ rules) (haction : action ∈ rule.actions) :
    first.Reaches r rules (s.execute r.known rule action).stage := by
  obtain ⟨steps, hsteps, rfl⟩ := h
  refine ⟨steps ++ [(rule, action)], ?_, ?_⟩
  · intro step hstep
    rcases List.mem_append.mp hstep with hformer | hlast
    · exact hsteps step hformer
    · cases List.mem_singleton.mp hlast
      exact ⟨hrule, haction⟩
  · rw [after_append]
    rfl

/-- What an action does is recorded as its own and is no failure. -/
theorem application_of_execute {known : String → Bool}
    (h : (s.execute known rule action).result = .ok a) :
    a.action = action ∧ a.success = true := by
  unfold execute at h
  cases hdeed : Deed.ofAction known rule action s.world with
  | error failure =>
    rw [hdeed] at h
    cases h
  | ok deed =>
    simp only [hdeed] at h
    cases deed with
    | recommend | trigger | spawn | log =>
      cases h
      exact ⟨rfl, rfl⟩
    | write target value range before message =>
      have hwrote := wrote_performWrite s rule action target value range before message
      simp only [perform] at h
      generalize (s.performWrite rule action target value range before message).result = result
        at hwrote h
      cases hwrote with
      | @intro _ _ outcome =>
        cases outcome with
        | error => cases h
        | ok outcome =>
          cases h
          obtain ⟨_, hwritten⟩ := Application.written_eq action before outcome message
          exact ⟨congrArg Application.action hwritten, congrArg Application.success hwritten⟩

theorem success_of_execute {known : String → Bool}
    (h : (s.execute known rule action).result = .ok a) : a.success = true :=
  (application_of_execute h).2

end Stage

/-- An application that is recorded where an action of a rule ends the turn of the rule,
on a stage that a tick comes through. -/
def Application.Stopped (a : Application) (r : TickRules) (rules : List Rule) (first : Stage)
    (rule : Rule) : Prop :=
  ∃ action ∈ rule.actions, ∃ s failure, first.Reaches r rules s ∧
    s.Stops r rule action failure ∧ a = .failed action failure .absent

namespace Tick

structure Accounted (r : TickRules) (rules : List Rule) (first : Stage) (t : Tick) : Prop where
  stage : first.Reaches r rules t.stage
  drafts : ∀ d ∈ t.drafts, d.rule ∈ rules
  stopped : ∀ d ∈ t.drafts, ∀ a ∈ d.applications, a.success = false →
    a.Stopped r rules first d.rule

variable {r : TickRules} {rules waiting : List Rule} {first : Stage} {source : QueueEntry}
  {rule : Rule} {action : Action} {t t' : Tick} {scheduled scheduled' : List QueueEntry}

namespace Accounted

/-- Drafts may be changed as long as a failure is added only where a turn ended. -/
theorem map (h : Accounted r rules first t) {g : Draft → Draft} (hstage : t'.stage = t.stage)
    (hdrafts : t'.drafts = t.drafts.map g) (hrule : ∀ d, (g d).rule = d.rule)
    (happlications : ∀ d, d.rule ∈ rules → ∀ a ∈ (g d).applications, a.success = false →
      a ∈ d.applications ∨ a.Stopped r rules first d.rule) : Accounted r rules first t' := by
  refine ⟨hstage ▸ h.stage, ?_, ?_⟩
  · intro d hd
    rw [hdrafts] at hd
    obtain ⟨former, hformer, rfl⟩ := List.mem_map.mp hd
    rw [hrule]
    exact h.drafts former hformer
  · intro d hd a ha hfailed
    rw [hdrafts] at hd
    obtain ⟨former, hformer, rfl⟩ := List.mem_map.mp hd
    rw [hrule]
    rcases happlications former (h.drafts former hformer) a ha hfailed with hold | hnew
    · exact h.stopped former hformer a hold hfailed
    · exact hnew

theorem annotates (h : Accounted r rules first t) {g : Draft → Draft} (hg : Draft.Annotates g)
    (hstage : t'.stage = t.stage) (hdrafts : t'.drafts = t.drafts.map g) :
    Accounted r rules first t' := by
  refine h.map hstage hdrafts hg.rule ?_
  intro d _ a ha _
  rw [hg.applications] at ha
  exact .inl ha

/-- What is added to the drafts of a rule is added to no draft of another rule. -/
theorem updateDraft (h : Accounted r rules first t) (hdistinct : (rules.map (·.id)).Nodup)
    (hmember : rule ∈ rules) {f : Draft → Draft} (hrule : ∀ d, (f d).rule = d.rule)
    (happlications : ∀ d, ∀ a ∈ (f d).applications, a.success = false →
      a ∈ d.applications ∨ a.Stopped r rules first rule) :
    Accounted r rules first (t.updateDraft rule.id f) := by
  refine h.map (g := fun d => if d.rule.id = rule.id then f d else d) rfl rfl ?_ ?_
  · intro d
    split
    · exact hrule d
    · rfl
  · intro d hd a ha hfailed
    split at ha
    · rename_i hsame
      rw [List.inj_on_of_nodup_map hdistinct hd hmember hsame]
      exact happlications d a ha hfailed
    · exact .inl ha

theorem recordApplied (h : Accounted r rules first t) (hdistinct : (rules.map (·.id)).Nodup)
    (hmember : rule ∈ rules) {a : Application} (hsuccess : a.success = true) :
    Accounted r rules first (t.recordApplied rule a) := by
  obtain ⟨g, hg, heq⟩ := recordApplied_annotates t rule a
  have hupdated : Accounted r rules first (t.updateDraft rule.id (·.recordApplication a)) := by
    refine h.updateDraft hdistinct hmember (Draft.recordApplication_rule · a) ?_
    intro d b hb hfailed
    rw [Draft.recordApplication_applications] at hb
    rcases List.mem_append.mp hb with hold | hlast
    · exact .inl hold
    · rw [List.mem_singleton.mp hlast, hsuccess] at hfailed
      cases hfailed
  rw [heq]
  exact hupdated.annotates hg rfl rfl

theorem recordFailed (h : Accounted r rules first t) (hdistinct : (rules.map (·.id)).Nodup)
    (hmember : rule ∈ rules) {failure : Failure}
    (hstopped : (Application.failed action failure .absent).Stopped r rules first rule) :
    Accounted r rules first (t.recordFailed rule action failure) := by
  have hupdated : Accounted r rules first (t.updateDraft rule.id fun d =>
      (d.recordApplication (.failed action failure .absent)).addFailure failure.recorded) := by
    refine h.updateDraft hdistinct hmember (fun d => by simp) ?_
    intro d b hb _
    rw [Draft.addFailure_applications, Draft.recordApplication_applications] at hb
    rcases List.mem_append.mp hb with hold | hlast
    · exact .inl hold
    · rw [List.mem_singleton.mp hlast]
      exact .inr hstopped
  exact ⟨hupdated.stage, hupdated.drafts, hupdated.stopped⟩

theorem act (h : Accounted r rules first t) (hdistinct : (rules.map (·.id)).Nodup)
    (hmember : rule ∈ rules) (haction : action ∈ rule.actions) (hsource : source.ruleId = rule.id)
    (hact : Act r waiting source rule action t scheduled t' scheduled') :
    Accounted r rules first t' := by
  have hperformed : Accounted r rules first (t.perform r rule action) :=
    ⟨h.stage.execute hmember haction, h.drafts, h.stopped⟩
  cases hact with
  | failed hresult =>
    exact hperformed.recordFailed hdistinct hmember
      ⟨action, haction, t.stage, _, h.stage, .failed hresult, rfl⟩
  | @overflowed _ _ overflow hresult hrequest hschedule =>
    have hhalted : Accounted r rules first ((t.perform r rule action).halt overflow) :=
      ⟨hperformed.stage, hperformed.drafts, hperformed.stopped⟩
    obtain ⟨-, hdeep⟩ := tooDeep_of_overflowed hsource hschedule
    exact hhalted.recordFailed hdistinct hmember
      ⟨action, haction, t.stage, _, h.stage, .overflowed hresult hrequest hdeep, rfl⟩
  | applied hresult | queued hresult =>
    exact hperformed.recordApplied hdistinct hmember (Stage.success_of_execute hresult)
  | @ignored _ _ note hresult =>
    obtain ⟨g, hg, heq⟩ := (t.perform r rule action).updateDraft_addsNotes rule.id
      (Draft.addsNotes_addSideEffect note)
    have hnoted : Accounted r rules first
        ((t.perform r rule action).updateDraft rule.id (·.addSideEffect note)) := by
      rw [heq]
      exact hperformed.annotates hg.annotates rfl rfl
    have hsuccess := Stage.success_of_execute hresult
    exact hnoted.recordApplied hdistinct hmember hsuccess

theorem turn (h : Accounted r rules first t) (hdistinct : (rules.map (·.id)).Nodup)
    (hmember : rule ∈ rules) (hsource : source.ruleId = rule.id) :
    Accounted r rules first (evaluateRule r waiting source rule t).1 := by
  refine evaluateRule_preserves (P := fun t' _ => Accounted r rules first t') ?_ ?_
  · intro draft notices hrule hnone
    refine ⟨h.stage, ?_, ?_⟩
    · intro d hd
      rcases List.mem_append.mp hd with hformer | hlast
      · exact h.drafts d hformer
      · rw [List.mem_singleton.mp hlast, hrule]
        exact hmember
    · intro d hd a ha hfailed
      rcases List.mem_append.mp hd with hformer | hlast
      · exact h.stopped d hformer a ha hfailed
      · rw [List.mem_singleton.mp hlast, hnone] at ha
        exact (List.not_mem_nil ha).elim
  · exact fun _ haction _ _ _ _ hbefore hact => hbefore.act hdistinct hmember haction hsource hact

end Accounted

/-- Every failure of an action in a tick has ended the turn of its rule. -/
theorem accounted_drain (hdistinct : (rules.map (·.id)).Nodup) (hfresh : t.drafts = []) :
    Accounted r rules t.stage (drain r rules (rules.map QueueEntry.base) t) := by
  have hend : ∃ left : List Rule, (∀ rule ∈ left, rule ∈ rules) ∧
      Accounted r rules t.stage (drain r rules (rules.map QueueEntry.base) t) := by
    refine drain_preserves (P := fun waiting _ t' =>
      (∀ rule ∈ waiting, rule ∈ rules) ∧ Accounted r rules t.stage t') ?_ ?_ ?_
    · rintro waiting entry _ t' _ ⟨hwaiting, haccounted⟩
      obtain ⟨g, hg, heq⟩ := t'.noteIgnored_annotates entry
      rw [heq]
      exact ⟨hwaiting, haccounted.annotates hg rfl rfl⟩
    · rintro waiting entry _ t' rule hrule ⟨hwaiting, haccounted⟩
      have hids : rule.id = entry.ruleId := by simpa using List.find?_some hrule
      have hmember := hwaiting rule (List.mem_of_find?_eq_some hrule)
      exact ⟨fun other hother => hwaiting other (List.mem_of_mem_eraseP hother),
        haccounted.turn hdistinct hmember hids.symm⟩
    · refine ⟨fun _ h => h, ⟨[], fun _ hstep => (List.not_mem_nil hstep).elim, rfl⟩, ?_, ?_⟩
      · intro d hd
        rw [hfresh] at hd
        exact (List.not_mem_nil hd).elim
      · intro d hd
        rw [hfresh] at hd
        exact (List.not_mem_nil hd).elim
  obtain ⟨_, _, haccounted⟩ := hend
  exact haccounted

end Tick

end Harbormaster
