import Harbormaster.Proofs.Condition.Settling
import Harbormaster.Proofs.Tick.DepthFirst

/-!
Where failures go. The turns of a tick are told here without queue and drafts: each
evaluates conditions, of which some may raise failures, and executes actions until
one of them fails or asks for a chain that is too deep. Whatever is raised in a turn,
and nothing else, stands in the draft of the rule that has the turn. When a rule has
its turn, and how deep its chain is by then, is left open here.
-/

namespace Harbormaster

theorem failures_evaluateConditions (conditions : List Condition) (logic : Logic) (w : World) :
    (evaluateConditions conditions logic w).evaluations.filterMap (·.failure) =
      (Condition.failures conditions w).map Failure.recorded := by
  simp only [evaluateConditions, Condition.failures, List.filterMap_map, List.map_filterMap]
  exact congrArg (List.filterMap · conditions) (funext fun c => (c.records_evaluate w).failure)

namespace Draft

theorem Annotates.failures {f : Draft → Draft} (hf : Annotates f) (d : Draft) :
    (f d).failures = d.failures := by
  obtain ⟨_, _, h⟩ := hf d
  rw [h]

@[simp] theorem addFailure_failures (d : Draft) (failure : RecordedFailure) :
    (d.addFailure failure).failures = d.failures ++ [failure] := rfl

@[simp] theorem recordApplication_failures (d : Draft) (a : Application) :
    (d.recordApplication a).failures = d.failures := by
  unfold recordApplication
  dsimp only
  split <;> rfl

private theorem foldl_addFailure_failures (failures : List RecordedFailure) (d : Draft) :
    (failures.foldl addFailure d).failures = d.failures ++ failures := by
  induction failures generalizing d with
  | nil => exact (List.append_nil _).symm
  | cons failure rest ih =>
    rw [List.foldl_cons, ih, addFailure_failures, List.append_assoc]
    rfl

@[simp] theorem recordConditions_failures (d : Draft) (outcome : ConditionsOutcome) :
    (d.recordConditions outcome).failures =
      d.failures ++ outcome.evaluations.filterMap (·.failure) :=
  foldl_addFailure_failures _ { d with outcome }

end Draft

structure Course where
  stage : Stage
  overflow : Option ChainOverflow

namespace Course

def raisedBy (overflow : ChainOverflow) : Failure :=
  .chainOverflow overflow.ruleId (.number overflow.depth) (.number overflow.limit)

structure TooDeep (most : Nat) (rule : Rule) (target : String) (overflow : ChainOverflow) :
    Prop where
  ruleId : overflow.ruleId = target
  triggeredBy : overflow.triggeredBy = rule.id
  limit : overflow.limit = .ofNat most
  depth : ∃ depth, overflow.depth = .ofNat depth ∧ most < depth

/-- The actions of a rule, executed in order until one of them fails or asks for a chain
that is too deep; then the rest is left out, and a failure is raised. -/
inductive Executes (r : TickRules) (rule : Rule) :
    List Action → Course → Option Failure → Course → Prop where
  | done (c : Course) : Executes r rule [] c none c
  | applied {action : Action} {rest : List Action} {c c' : Course} {a : Application}
      {raised : Option Failure}
      (hresult : (c.stage.execute r.known rule action).result = .ok a)
      (hrest : Executes r rule rest
        { c with stage := (c.stage.execute r.known rule action).stage } raised c') :
      Executes r rule (action :: rest) c raised c'
  | failed {action : Action} {rest : List Action} {c : Course} {failure : Failure}
      (hresult : (c.stage.execute r.known rule action).result = .error failure) :
      Executes r rule (action :: rest) c (some failure)
        { c with stage := (c.stage.execute r.known rule action).stage }
  | overflowed {action : Action} {rest : List Action} {c : Course} {a : Application}
      {target : String} {overflow : ChainOverflow}
      (hresult : (c.stage.execute r.known rule action).result = .ok a)
      (hrequest : a.triggerRequest = some target) (hfirst : c.overflow = none)
      (hdeep : TooDeep r.maxChainDepth rule target overflow) :
      Executes r rule (action :: rest) c (some (raisedBy overflow))
        ⟨(c.stage.execute r.known rule action).stage, some overflow⟩

/-- The turn of a rule, with the failures that are raised in it: those of its conditions
and, if it fires, the one at which its actions stop. -/
inductive Turn (r : TickRules) (rule : Rule) : Course → List Failure → Course → Prop where
  | quiet {c : Course}
      (hquiet : (evaluateConditions rule.conditions rule.junction c.stage.world).triggered =
        false) :
      Turn r rule c (Condition.failures rule.conditions c.stage.world) c
  | fired {c c' : Course} {raised : Option Failure}
      (htriggered : (evaluateConditions rule.conditions rule.junction c.stage.world).triggered =
        true)
      (hactions : Executes r rule rule.actions c raised c') :
      Turn r rule c (Condition.failures rule.conditions c.stage.world ++ raised.toList) c'

inductive Turns (r : TickRules) : Course → List (Rule × List Failure) → Course → Prop where
  | none (c : Course) : Turns r c [] c
  | next {c c₁ c₂ : Course} {turns : List (Rule × List Failure)} {rule : Rule}
      {raised : List Failure} (hbefore : Turns r c turns c₁) (hturn : Turn r rule c₁ raised c₂) :
      Turns r c (turns ++ [(rule, raised)]) c₂

/-- The failures of turns as drafts record them. -/
def recorded (turns : List (Rule × List Failure)) : List (Rule × List RecordedFailure) :=
  turns.map fun turn => (turn.1, turn.2.map Failure.recorded)

end Course

namespace Tick

open Course

variable {r : TickRules} {rules waiting : List Rule} {source entry : QueueEntry} {rule : Rule}
  {t t' : Tick} {scheduled : List QueueEntry} {former : List (Rule × List RecordedFailure)}
  {raised more : List RecordedFailure}

def course (t : Tick) : Course := ⟨t.stage, t.overflow⟩

/-- The rules that have had their turn, with the failures that are recorded of it. -/
def failures (t : Tick) : List (Rule × List RecordedFailure) :=
  t.drafts.map fun d => (d.rule, d.failures)

theorem failures_map {g : Draft → Draft} (hrule : ∀ d, (g d).rule = d.rule)
    (hfailures : ∀ d, (g d).failures = d.failures) (h : t'.drafts = t.drafts.map g) :
    t'.failures = t.failures := by
  unfold failures
  rw [h, List.map_map]
  refine List.map_congr_left fun d _ => ?_
  simp only [Function.comp, hrule, hfailures]

theorem failures_of_annotates {g : Draft → Draft} (hg : Draft.Annotates g)
    (h : t'.drafts = t.drafts.map g) : t'.failures = t.failures :=
  failures_map hg.rule hg.failures h

/-- While a rule has its turn its draft is the last one and the only one of its id. -/
theorem failures_updateDraft {f : Draft → Draft} (hrule : ∀ d, (f d).rule = d.rule)
    (hfailures : ∀ d, (f d).failures = d.failures ++ more)
    (hlast : t.failures = former ++ [(rule, raised)])
    (hnew : ∀ turn ∈ former, turn.1.id ≠ rule.id) :
    (t.updateDraft rule.id f).failures = former ++ [(rule, raised ++ more)] := by
  obtain ⟨drafts, last, hdrafts, hformer, hcurrent⟩ := List.map_eq_append_iff.mp hlast
  obtain ⟨d, rfl, hd⟩ := List.map_eq_singleton_iff.mp hcurrent
  obtain ⟨hown, hraised⟩ := Prod.mk.inj hd
  have hfresh : rule.id ∉ drafts.map (·.rule.id) := by
    intro hmember
    obtain ⟨other, hother, hsame⟩ := List.mem_map.mp hmember
    exact hnew (other.rule, other.failures) (hformer ▸ List.mem_map_of_mem hother) hsame
  unfold failures
  rw [drafts_updateDraft_last hdrafts (congrArg Rule.id hown) hfresh f, List.map_append, hformer,
    List.map_singleton, hrule, hfailures, hown, hraised]

theorem failures_updateDraft_addsNotes (t : Tick) (rule : String) {f : Draft → Draft}
    (hf : Draft.AddsNotes f) : (t.updateDraft rule f).failures = t.failures := by
  obtain ⟨g, hg, heq⟩ := t.updateDraft_addsNotes rule hf
  rw [heq]
  exact failures_of_annotates hg.annotates rfl

/-- An action that was applied is recorded without a failure. -/
theorem recordApplied_course (t : Tick) (rule : Rule) (a : Application) :
    (t.recordApplied rule a).course = t.course ∧
      (t.recordApplied rule a).failures = t.failures := by
  obtain ⟨g, hg, heq⟩ := recordApplied_annotates t rule a
  have hupdate : (t.updateDraft rule.id (·.recordApplication a)).failures = t.failures := by
    refine failures_map (g := fun d => if d.rule.id = rule.id then d.recordApplication a else d)
      ?_ ?_ rfl
    · intro d
      split
      · exact d.recordApplication_rule a
      · rfl
    · intro d
      split
      · exact d.recordApplication_failures a
      · rfl
  rw [heq]
  exact ⟨rfl, (failures_of_annotates hg rfl).trans hupdate⟩

/-- The action at which a rule stops is recorded with its failure. -/
theorem recordFailed_failures (hlast : t.failures = former ++ [(rule, raised)])
    (hnew : ∀ turn ∈ former, turn.1.id ≠ rule.id) (action : Action) (failure : Failure) :
    (t.recordFailed rule action failure).failures =
      former ++ [(rule, raised ++ [failure.recorded])] :=
  failures_updateDraft (f := fun d =>
    (d.recordApplication (.failed action failure .absent)).addFailure failure.recorded)
    (fun d => by simp) (fun d => by simp) hlast hnew

/-- A request overflows the first chain that gets too deep only. -/
theorem tooDeep_of_overflowed {limit : Nat} {target : String} {overflow : ChainOverflow}
    (hsource : source.ruleId = rule.id)
    (h : t.schedule limit waiting source scheduled target = .overflowed overflow) :
    t.overflow = none ∧ TooDeep limit rule target overflow := by
  unfold schedule at h
  split at h
  · cases h
  · rename_i hopen
    split at h
    · cases h
    · dsimp only at h
      split at h
      · rename_i hdepth
        cases h
        exact ⟨by simpa [halted] using hopen, ⟨rfl, hsource, rfl, _, rfl, hdepth⟩⟩
      · cases h

/-- The actions of a rule leave the failure at which they stop, if any, behind the
failures that are recorded of the rule already. -/
theorem executes_applyActions (waiting : List Rule) (actions : List Action)
    (scheduled : List QueueEntry) (hsource : source.ruleId = rule.id)
    (hlast : t.failures = former ++ [(rule, raised)])
    (hnew : ∀ turn ∈ former, turn.1.id ≠ rule.id) :
    ∃ stop, Executes r rule actions t.course stop
        (applyActions r waiting source rule actions t scheduled).1.course ∧
      (applyActions r waiting source rule actions t scheduled).1.failures =
        former ++ [(rule, raised ++ (stop.map Failure.recorded).toList)] := by
  induction actions generalizing t scheduled with
  | nil => exact ⟨none, .done _, by simpa [applyActions] using hlast⟩
  | cons action rest ih =>
    have hperformed : (t.perform r rule action).failures = former ++ [(rule, raised)] := hlast
    rw [applyActions_cons]
    split
    · rename_i failure hresult
      exact ⟨some failure, .failed hresult, recordFailed_failures hperformed hnew _ _⟩
    · rename_i a hresult
      -- every action that is applied leaves the same course and no failure
      have happlied : ∀ (t' : Tick) (scheduled' : List QueueEntry),
          t'.course = (t.perform r rule action).course → t'.failures = former ++ [(rule, raised)] →
          ∃ stop, Executes r rule (action :: rest) t.course stop
              (applyActions r waiting source rule rest t' scheduled').1.course ∧
            (applyActions r waiting source rule rest t' scheduled').1.failures =
              former ++ [(rule, raised ++ (stop.map Failure.recorded).toList)] := by
        intro t' scheduled' hcourse hlast'
        obtain ⟨stop, hexecutes, hfailures⟩ := ih scheduled' hlast'
        rw [hcourse] at hexecutes
        exact ⟨stop, .applied hresult hexecutes, hfailures⟩
      have hrecorded := (t.perform r rule action).recordApplied_course rule
      split
      · exact happlied _ _ (hrecorded a).1 ((hrecorded a).2.trans hperformed)
      · rename_i target hrequest
        split
        · exact happlied _ _ (hrecorded a).1 ((hrecorded a).2.trans hperformed)
        · rename_i note hschedule
          have hnoted := (t.perform r rule action).failures_updateDraft_addsNotes rule.id
            (Draft.addsNotes_addSideEffect note)
          obtain ⟨hcourse, hfailures⟩ := recordApplied_course
            ((t.perform r rule action).updateDraft rule.id (·.addSideEffect note)) rule
            { a with triggerRequest := none, message := a.message ++ " (ignored)" }
          exact happlied _ _ hcourse (hfailures.trans (hnoted.trans hperformed))
        · rename_i overflow hschedule
          obtain ⟨hfirst, hdeep⟩ := tooDeep_of_overflowed hsource hschedule
          exact ⟨some (raisedBy overflow), .overflowed hresult hrequest hfirst hdeep,
            recordFailed_failures (t := (t.perform r rule action).halt overflow) hperformed hnew
              _ _⟩

/-- The turn of a rule leaves a draft with the failures that are raised in it. -/
theorem turn_evaluateRule (waiting : List Rule) (hsource : source.ruleId = rule.id)
    (hnew : ∀ turn ∈ t.failures, turn.1.id ≠ rule.id) :
    ∃ raised, Turn r rule t.course raised (evaluateRule r waiting source rule t).1.course ∧
      (evaluateRule r waiting source rule t).1.failures =
        t.failures ++ [(rule, raised.map Failure.recorded)] := by
  have hbegun : ∀ notices, (({ t with drafts := t.drafts ++ [(Draft.new rule t.number
      (.ofText? source.triggeredBy)).recordConditions
        (evaluateConditions rule.conditions rule.junction t.stage.world)] } : Tick).note
          notices).failures =
      t.failures ++ [(rule, (Condition.failures rule.conditions t.stage.world).map
        Failure.recorded)] := by
    intro notices
    simp [failures, note, Draft.new, failures_evaluateConditions]
  unfold evaluateRule
  dsimp only
  split
  · rename_i htriggered
    obtain ⟨stop, hexecutes, hfailures⟩ := executes_applyActions (r := r) waiting rule.actions []
      hsource (hbegun _) hnew
    refine ⟨Condition.failures rule.conditions t.stage.world ++ stop.toList,
      .fired htriggered hexecutes, ?_⟩
    rw [hfailures, List.map_append]
    cases stop with
    | none | some => rfl
  · rename_i hquiet
    refine ⟨Condition.failures rule.conditions t.stage.world,
      .quiet (Bool.eq_false_iff.mpr hquiet), ?_⟩
    simpa [note] using hbegun []

theorem noteIgnored_course (t : Tick) (entry : QueueEntry) :
    (t.noteIgnored entry).course = t.course ∧ (t.noteIgnored entry).failures = t.failures := by
  obtain ⟨g, hg, heq⟩ := t.noteIgnored_annotates entry
  rw [heq]
  exact ⟨rfl, failures_of_annotates hg rfl⟩

/-- Turns that have led from `c` to a tick, with the rules that wait still. -/
def Led (r : TickRules) (rules : List Rule) (c : Course) (waiting : List Rule) (t : Tick) : Prop :=
  ∃ turns, Turns r c turns t.course ∧ t.failures = recorded turns ∧
    (turns.map (·.1) ++ waiting).Perm rules

theorem Led.turn {c : Course} (hdistinct : (rules.map (·.id)).Nodup)
    (hrule : waiting.find? (·.id = entry.ruleId) = some rule) (h : Led r rules c waiting t) :
    Led r rules c (waiting.eraseP (·.id = entry.ruleId))
      (evaluateRule r (waiting.eraseP (·.id = entry.ruleId)) entry rule t).1 := by
  obtain ⟨turns, hturns, hfailures, hperm⟩ := h
  have hids : rule.id = entry.ruleId := by simpa using List.find?_some hrule
  have hnew : ∀ turn ∈ t.failures, turn.1.id ≠ rule.id := by
    intro turn hturn hsame
    rw [hfailures] at hturn
    obtain ⟨told, htold, rfl⟩ := List.mem_map.mp hturn
    have hnodup := (hperm.map (·.id)).nodup_iff.mpr hdistinct
    rw [List.map_append] at hnodup
    refine List.disjoint_of_nodup_append hnodup
      (List.mem_map_of_mem (List.mem_map_of_mem htold)) ?_
    exact List.mem_map.mpr ⟨rule, List.mem_of_find?_eq_some hrule, hsame.symm⟩
  obtain ⟨raised, hturn, hafter⟩ := turn_evaluateRule (r := r)
    (waiting.eraseP (·.id = entry.ruleId)) hids.symm hnew
  refine ⟨turns ++ [(rule, raised)], .next hturns hturn, ?_, ?_⟩
  · rw [hafter, hfailures]
    simp [recorded]
  · rw [List.map_append, List.append_assoc]
    exact ((perm_cons_eraseP hrule).symm.append_left _).trans hperm

/-- Working off the queue is a course of turns, one for every rule, and its drafts
record what is raised in them. -/
theorem turns_drain (hdistinct : (rules.map (·.id)).Nodup) (hfresh : t.drafts = []) :
    ∃ turns, Turns r t.course turns (drain r rules (rules.map QueueEntry.base) t).course ∧
      (drain r rules (rules.map QueueEntry.base) t).failures = recorded turns ∧
      (turns.map (·.1)).Perm rules := by
  have hend : ∃ left, Led r rules t.course left (drain r rules (rules.map QueueEntry.base) t) := by
    refine drain_preserves (P := fun waiting _ t' => Led r rules t.course waiting t') ?_ ?_ ?_
    · rintro waiting entry _ t' _ ⟨turns, hturns, hfailures, hperm⟩
      obtain ⟨hcourse, hsame⟩ := t'.noteIgnored_course entry
      exact ⟨turns, hcourse ▸ hturns, hsame.trans hfailures, hperm⟩
    · exact fun hrule hbefore => hbefore.turn hdistinct hrule
    · exact ⟨[], .none _, by simp [failures, hfresh, recorded], .refl _⟩
  obtain ⟨left, turns, hturns, hfailures, hperm⟩ := hend
  -- as many rules have had their turn as there are
  have hcount : turns.length = rules.length := by
    have hevaluated := (drain_evaluated (r := r) hdistinct t hfresh).length_eq
    have hdrafts := congrArg List.length hfailures
    simp only [evaluated, failures, recorded, List.length_map] at hevaluated hdrafts
    omega
  have hnone : left = [] := by
    have hlength := hperm.length_eq
    rw [List.length_append, List.length_map] at hlength
    exact List.length_eq_zero_iff.mp (by omega)
  subst hnone
  rw [List.append_nil] at hperm
  exact ⟨turns, hturns, hfailures, hperm⟩

end Tick

end Harbormaster
