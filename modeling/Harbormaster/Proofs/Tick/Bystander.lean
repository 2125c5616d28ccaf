import Harbormaster.Proofs.Tick.Requests

/-!
Rules that stand by. A rule that does not fire, and that no other rule asks for, leaves a
draft of its own and nothing else: the queue, the stage and the drafts of the other rules
come out as if it were not there. Two queues are worked off side by side here, one with
the rule and one without it, and stay alike at every entry.
-/

namespace Harbormaster

namespace TickRules

/-- The rules of a tick but one. -/
def without (r : TickRules) (id : String) : TickRules :=
  { r with rules := r.rules.filter (·.id ≠ id) }

theorem known_without (r : TickRules) {id other : String} (hother : other ≠ id) :
    (r.without id).known other = r.known other := by
  unfold known without
  rw [Bool.eq_iff_iff, List.any_eq_true, List.any_eq_true]
  constructor
  · rintro ⟨rule, hrule, hid⟩
    exact ⟨rule, List.mem_of_mem_filter hrule, hid⟩
  · rintro ⟨rule, hrule, hid⟩
    have hsame : rule.id = other := of_decide_eq_true hid
    exact ⟨rule, List.mem_filter.mpr ⟨hrule, by simpa [hsame] using hother⟩, hid⟩

end TickRules

namespace Stage

variable {s : Stage} {known known' : String → Bool} {rule : Rule} {action : Action}

/-- Only the rule that an action asks for has to be known. -/
theorem execute_congr (hknown : ∀ target, action.AsksFor target → known' target = known target) :
    s.execute known' rule action = s.execute known rule action := by
  have hdeed : Deed.ofAction known' rule action s.world =
      Deed.ofAction known rule action s.world := by
    cases hkind : action.kind with
    | set | add | clamp | recommend | spawnEvent | log => simp only [Deed.ofAction, hkind]
    | triggerRule =>
      simp only [Deed.ofAction, hkind, Deed.ofTrigger, bind, Except.bind]
      cases hrequire : action.require "ruleId" with
      | error failure => rfl
      | ok v =>
        have hsame : v.text?.filter known' = v.text?.filter known := by
          cases htext : v.text? with
          | none => rfl
          | some target =>
            have hnamed :=
              (Deed.eq_of_require hrequire).symm.trans (Value.text?_eq_some_iff.mp htext)
            rw [Option.filter_some, Option.filter_some, hknown target ⟨hkind, hnamed⟩]
        simp only [hsame]
  unfold execute
  rw [hdeed]

theorem execute_without (s : Stage) (r : TickRules) (rule : Rule) {id : String}
    (hquiet : ¬ action.AsksFor id) :
    s.execute (r.without id).known rule action = s.execute r.known rule action := by
  refine execute_congr fun target hasks => r.known_without ?_
  rintro rfl
  exact hquiet hasks

end Stage

namespace Tick

variable {r : TickRules} {waiting : List Rule} {source : QueueEntry} {rule : Rule}
  {action : Action} {t : Tick} {scheduled queue rest : List QueueEntry} {id : String}

/-- A tick without the draft of a rule. -/
def without (t : Tick) (id : String) : Tick :=
  { t with drafts := t.drafts.filter (·.rule.id ≠ id) }

section Recording

variable (t : Tick) (id : String)

@[simp] theorem stage_without : (t.without id).stage = t.stage := rfl

@[simp] theorem number_without : (t.without id).number = t.number := rfl

@[simp] theorem halted_without : (t.without id).halted = t.halted := rfl

theorem without_updateDraft (rule : String) {f : Draft → Draft} (hf : ∀ d, (f d).rule = d.rule) :
    (t.updateDraft rule f).without id = (t.without id).updateDraft rule f := by
  unfold updateDraft without
  dsimp only
  rw [List.filter_map]
  congr 2
  refine List.filter_congr fun d _ => ?_
  dsimp only [Function.comp]
  split
  · rw [hf]
  · rfl

theorem without_attachConflict (conflict : String) :
    (t.attachConflict conflict).without id = (t.without id).attachConflict conflict := by
  unfold attachConflict
  simp only [stage_without]
  split
  · rfl
  · rename_i record hfound
    clear hfound
    have hrule := (Draft.addsNotes_recordConflict conflict (conflictSummary record)).annotates.rule
    generalize record.conflictingRules = rules
    induction rules generalizing t with
    | nil => rfl
    | cons rule rest ih =>
      rw [List.foldl_cons, List.foldl_cons, ih, without_updateDraft t id rule hrule]

theorem without_recordApplied (rule : Rule) (a : Application) :
    (t.recordApplied rule a).without id = (t.without id).recordApplied rule a := by
  have hrecorded : ({ t.updateDraft rule.id (·.recordApplication a) with
      actionsApplied := t.actionsApplied + 1 } : Tick).without id =
      { (t.without id).updateDraft rule.id (·.recordApplication a) with
        actionsApplied := t.actionsApplied + 1 } := by
    rw [← without_updateDraft t id rule.id (Draft.recordApplication_rule · a)]
    rfl
  unfold recordApplied
  dsimp only
  split
  · rw [without_attachConflict, hrecorded]
    rfl
  · exact hrecorded

theorem without_recordFailed (rule : Rule) (action : Action) (failure : Failure) :
    (t.recordFailed rule action failure).without id =
      (t.without id).recordFailed rule action failure := by
  have hrecorded := t.without_updateDraft id rule.id (f := fun d =>
    (d.recordApplication (.failed action failure .absent)).addFailure failure.recorded)
    fun d => by simp
  unfold recordFailed
  dsimp only
  rw [← hrecorded]
  rfl

theorem without_noteIgnored (entry : QueueEntry) :
    (t.noteIgnored entry).without id = (t.without id).noteIgnored entry := by
  unfold noteIgnored
  split
  · exact without_updateDraft t id _ fun _ => rfl
  · rfl

end Recording

theorem perform_without (t : Tick) (r : TickRules) (rule : Rule) (hquiet : ¬ action.AsksFor id) :
    (t.without id).perform (r.without id) rule action = (t.perform r rule action).without id := by
  unfold perform
  rw [stage_without, Stage.execute_without t.stage r rule hquiet]
  rfl

/-- Whether another rule is taken off the rules that wait makes no difference to a request. -/
theorem schedule_without {limit : Nat} {target : String} (hother : target ≠ id) :
    (t.without id).schedule limit (waiting.filter (·.id ≠ id)) source scheduled target =
      t.schedule limit waiting source scheduled target := by
  have hwaits : (waiting.filter (·.id ≠ id)).any (·.id = target) =
      waiting.any (·.id = target) :=
    TickRules.known_without ⟨waiting, limit⟩ hother
  unfold schedule
  rw [hwaits]
  rfl

/-- The actions of another rule do not need the rule that stands by. -/
theorem applyActions_without {actions : List Action}
    (hquiet : ∀ action ∈ actions, ¬ action.AsksFor id) (t : Tick) (scheduled : List QueueEntry) :
    applyActions (r.without id) (waiting.filter (·.id ≠ id)) source rule actions (t.without id)
        scheduled =
      ((applyActions r waiting source rule actions t scheduled).1.without id,
        (applyActions r waiting source rule actions t scheduled).2) := by
  induction actions generalizing t scheduled with
  | nil => rfl
  | cons action rest ih =>
    have hfirst := hquiet action List.mem_cons_self
    have hrest : ∀ t scheduled, _ :=
      ih fun other hother => hquiet other (List.mem_cons_of_mem _ hother)
    have hperform := t.perform_without r rule hfirst
    have hresult : ((t.without id).stage.execute (r.without id).known rule action).result =
        (t.stage.execute r.known rule action).result :=
      congrArg Execution.result (t.stage.execute_without r rule hfirst)
    rw [applyActions_cons, applyActions_cons, hresult, hperform]
    cases happlied : (t.stage.execute r.known rule action).result with
    | error failure =>
      dsimp only
      rw [without_recordFailed]
    | ok a =>
      dsimp only
      cases hrequest : a.triggerRequest with
      | none =>
        dsimp only
        rw [← without_recordApplied]
        exact hrest _ _
      | some target =>
        dsimp only
        have hother : target ≠ id := by
          rintro rfl
          exact hfirst (Stage.asksFor_of_request happlied hrequest).1
        rw [show (r.without id).maxChainDepth = r.maxChainDepth from rfl, schedule_without hother]
        split
        · rw [← without_recordApplied]
          exact hrest _ _
        · rename_i note _
          rw [← without_updateDraft _ id rule.id (f := (·.addSideEffect note)) fun _ => rfl,
            ← without_recordApplied]
          exact hrest _ _
        · rename_i overflow _
          rw [without_recordFailed]
          rfl

/-- Another rule has its turn as if the rule that stands by were not there. -/
theorem evaluateRule_without (hother : rule.id ≠ id)
    (hquiet : ∀ action ∈ rule.actions, ¬ action.AsksFor id) (t : Tick) :
    evaluateRule (r.without id) (waiting.filter (·.id ≠ id)) source rule (t.without id) =
      ((evaluateRule r waiting source rule t).1.without id,
        (evaluateRule r waiting source rule t).2) := by
  unfold evaluateRule
  dsimp only
  rw [stage_without]
  generalize evaluateConditions rule.conditions rule.junction t.stage.world = outcome
  have hbegun : (t.without id).drafts ++
      [(Draft.new rule t.number (.ofText? source.triggeredBy)).recordConditions outcome] =
      (t.drafts ++ [(Draft.new rule t.number (.ofText? source.triggeredBy)).recordConditions
        outcome]).filter (·.rule.id ≠ id) := by
    simp [without, Draft.new, hother]
  rw [number_without, hbegun]
  split
  · exact applyActions_without hquiet (note { t with drafts := t.drafts ++ [_] } _) []
  · rfl

/-- The rule that stands by leaves a draft of its own, and asks for nothing. -/
theorem evaluateRule_bystander (hown : rule.id = id)
    (hstands : (evaluateConditions rule.conditions rule.junction t.stage.world).triggered = false) :
    (evaluateRule r waiting source rule t).1.without id = t.without id ∧
      (evaluateRule r waiting source rule t).2 = [] := by
  unfold evaluateRule without
  simp [hstands, Draft.new, hown]

def outcomes (t : Tick) : List (String × Bool) :=
  t.drafts.map fun d => (d.rule.id, d.outcome.triggered)

theorem outcomes_eq (t : Tick) :
    t.outcomes = t.beginnings.map fun b => (b.1.id, b.2.2.triggered) := by
  rw [beginnings, List.map_map]
  rfl

/-- Whether a rule fires is settled when its turn begins. -/
theorem outcomes_evaluateRule (r : TickRules) (waiting : List Rule) (source : QueueEntry)
    (rule : Rule) (t : Tick) :
    (evaluateRule r waiting source rule t).1.outcomes = t.outcomes ++
      [(rule.id, (evaluateConditions rule.conditions rule.junction t.stage.world).triggered)] := by
  rw [outcomes_eq, beginnings_evaluateRule, List.map_append, ← outcomes_eq]
  rfl

theorem outcomes_noteIgnored (t : Tick) (entry : QueueEntry) :
    (t.noteIgnored entry).outcomes = t.outcomes := by
  rw [outcomes_eq, beginnings_noteIgnored, ← outcomes_eq]

/-- Turns that are over are not changed by those that follow. -/
theorem outcomes_drain (r : TickRules) (waiting : List Rule) (queue : List QueueEntry) (t : Tick) :
    t.outcomes <+: (drain r waiting queue t).outcomes := by
  have hend : ∃ left : List Rule, t.outcomes <+: (drain r waiting queue t).outcomes := by
    refine drain_preserves (P := fun _ _ t' => t.outcomes <+: t'.outcomes) ?_ ?_ List.prefix_rfl
    · intro _ entry _ t' _ hbefore
      rwa [outcomes_noteIgnored]
    · intro left entry _ t' rule _ hbefore
      rw [outcomes_evaluateRule]
      exact hbefore.trans (List.prefix_append _ _)
  obtain ⟨_, hprefix⟩ := hend
  exact hprefix

structure Spares (id : String) (t : Tick) (queue : List QueueEntry) : Prop where
  unasked : ∀ entry ∈ queue, entry.ruleId = id → entry.triggeredBy = none
  halted : t.halted = true → ∀ entry ∈ queue, entry.triggeredBy = none

theorem queueAfter_without (t : Tick) (hscheduled : ∀ entry ∈ scheduled, entry.ruleId ≠ id) :
    (t.queueAfter scheduled rest).filter (·.ruleId ≠ id) =
      (t.without id).queueAfter scheduled (rest.filter (·.ruleId ≠ id)) := by
  unfold queueAfter
  rw [halted_without]
  split
  · rw [List.filter_filter, List.filter_filter]
    exact List.filter_congr fun entry _ => Bool.and_comm _ _
  · rw [List.filter_append, List.filter_eq_self.mpr fun entry hentry => by
      simpa using hscheduled entry hentry]

/-- No rule that has had its turn has asked for the one that stands by. -/
theorem scheduled_ne (hquiet : ∀ action ∈ rule.actions, ¬ action.AsksFor id) :
    ∀ entry ∈ (evaluateRule r waiting source rule t).2, entry.ruleId ≠ id := by
  refine evaluateRule_preserves (P := fun _ scheduled => ∀ entry ∈ scheduled, entry.ruleId ≠ id)
    (fun _ _ _ _ _ hentry => nomatch hentry) ?_
  intro action haction t₁ scheduled t₂ _ hbefore hact
  cases hact with
  | failed | applied | ignored | overflowed => exact hbefore
  | queued hresult hrequest hschedule =>
    intro entry hentry
    rcases List.mem_append.mp hentry with hformer | hlast
    · exact hbefore entry hformer
    · obtain rfl := List.mem_singleton.mp hlast
      obtain ⟨-, -, -, -, rfl⟩ := of_queued hschedule
      rintro rfl
      exact hquiet action haction (Stage.asksFor_of_request hresult hrequest).1

theorem Spares.skip (h : Spares id t (source :: rest)) : Spares id (t.noteIgnored source) rest := by
  refine ⟨fun entry hentry => h.unasked entry (List.mem_cons_of_mem _ hentry), ?_⟩
  rw [halted_noteIgnored]
  exact fun hhalted entry hentry => h.halted hhalted entry (List.mem_cons_of_mem _ hentry)

theorem Spares.queueAfter {t' : Tick} (h : Spares id t (source :: rest))
    (hscheduled : ∀ entry ∈ scheduled, entry.ruleId ≠ id) :
    Spares id t' (t'.queueAfter scheduled rest) := by
  constructor
  · intro entry hentry hid
    rcases mem_of_queueAfter hentry with hbelow | hrest
    · exact absurd hid (hscheduled entry hbelow)
    · exact h.unasked entry (List.mem_cons_of_mem _ hrest) hid
  · intro hhalted entry hentry
    exact (mem_of_queueAfter_of_halted hhalted hentry).2

section Waiting

variable (waiting) {target : String} (hother : target ≠ id)

include hother

private theorem named_without :
    (fun rule : Rule => decide (rule.id = target) && decide (rule.id ≠ id)) =
      fun rule => decide (rule.id = target) := by
  funext rule
  rw [Bool.and_eq_left_iff_imp, decide_eq_true_iff, decide_eq_true_iff]
  rintro rfl
  exact hother

theorem find?_without :
    (waiting.filter (·.id ≠ id)).find? (·.id = target) = waiting.find? (·.id = target) := by
  rw [List.find?_filter]
  congr 1
  funext rule
  rw [Bool.decide_and, Bool.and_comm, Bool.decide_eq_true, Bool.decide_eq_true]
  exact congrFun (named_without hother) rule

theorem eraseP_without :
    (waiting.filter (·.id ≠ id)).eraseP (·.id = target) =
      (waiting.eraseP (·.id = target)).filter (·.id ≠ id) := by
  rw [List.eraseP_filter, named_without hother]

end Waiting

/-- Who has had its turn is missed by nobody once the rule that stands by is left out. -/
theorem filter_eraseP (waiting : List Rule) (id : String) :
    (waiting.eraseP (·.id = id)).filter (·.id ≠ id) = waiting.filter (·.id ≠ id) := by
  induction waiting with
  | nil => rfl
  | cons rule rest ih =>
    by_cases hown : rule.id = id
    · rw [List.eraseP_cons_of_pos (by simpa using hown),
        List.filter_cons_of_neg (by simpa using hown)]
    · rw [List.eraseP_cons_of_neg (by simpa using hown),
        List.filter_cons_of_pos (by simpa using hown),
        List.filter_cons_of_pos (by simpa using hown), ih]

/-- A rule that fires in no turn does not fire in its own. -/
theorem idle_of_outcomes {later : List Rule} (hown : rule.id = id)
    (hstands :
      (id, true) ∉ (drain r later queue (evaluateRule r waiting source rule t).1).outcomes) :
    (evaluateConditions rule.conditions rule.junction t.stage.world).triggered = false := by
  by_contra hfires
  rw [Bool.not_eq_false] at hfires
  refine hstands ((outcomes_drain ..).subset ?_)
  rw [outcomes_evaluateRule, hown, hfires]
  exact List.mem_append_right _ List.mem_cons_self

/-- Working off the queue without the rule that stands by comes to the same. -/
theorem drain_without (hquiet : ∀ rule ∈ waiting, rule.id ≠ id →
      ∀ action ∈ rule.actions, ¬ action.AsksFor id)
    (hspares : Spares id t queue)
    (hstands : (id, true) ∉ (drain r waiting queue t).outcomes) :
    drain (r.without id) (waiting.filter (·.id ≠ id)) (queue.filter (·.ruleId ≠ id))
        (t.without id) =
      (drain r waiting queue t).without id := by
  fun_induction drain r waiting queue t with
  | case1 waiting t => simp [drain]
  | case2 waiting t entry rest hfound ih =>
    have hnext := ih hquiet hspares.skip hstands
    rw [without_noteIgnored] at hnext
    by_cases hown : entry.ruleId = id
    · have hnobody := hspares.unasked entry List.mem_cons_self hown
      rw [List.filter_cons_of_neg (by simpa using hown), ← hnext, noteIgnored, hnobody]
    · have hmissing := (find?_without waiting hown).trans hfound
      rw [List.filter_cons_of_pos (by simpa using hown), drain_cons_of_none hmissing, hnext]
  | case3 waiting t entry rest rule hfound left t' scheduled hturned ih =>
    have hid : rule.id = entry.ruleId := by simpa using List.find?_some hfound
    have hleft : ∀ other ∈ left, other.id ≠ id → ∀ action ∈ other.actions, ¬ action.AsksFor id :=
      fun other hother => hquiet other (List.mem_of_mem_eraseP hother)
    obtain rfl : t' = (evaluateRule r left entry rule t).1 := (congrArg Prod.fst hturned).symm
    obtain rfl : scheduled = (evaluateRule r left entry rule t).2 :=
      (congrArg Prod.snd hturned).symm
    by_cases hown : rule.id = id
    · -- the rule that stands by has its turn, of which only its draft is left
      have hidle := idle_of_outcomes hown hstands
      obtain ⟨hsame, hnothing⟩ : (evaluateRule r left entry rule t).1.without id = t.without id ∧
          (evaluateRule r left entry rule t).2 = [] := evaluateRule_bystander hown hidle
      have hhalted : (evaluateRule r left entry rule t).1.halted = t.halted := by
        rw [← halted_without _ id, hsame, halted_without]
      have hqueue : (evaluateRule r left entry rule t).1.queueAfter
          (evaluateRule r left entry rule t).2 rest = rest := by
        rw [hnothing]
        refine queueAfter_nil fun hdropped other hother => ?_
        exact hspares.halted (hhalted ▸ hdropped) other (List.mem_cons_of_mem _ hother)
      have hnone : ∀ other ∈ (evaluateRule r left entry rule t).2, other.ruleId ≠ id := by
        rw [hnothing]
        exact List.forall_mem_nil _
      have hnext := ih hleft (hspares.queueAfter hnone) hstands
      rw [List.filter_cons_of_neg (by simpa [← hid] using hown), ← hnext, hqueue, hsame]
      subst hown
      rw [hid, filter_eraseP]
    · have hother : entry.ruleId ≠ id := hid ▸ hown
      have hrule := hquiet rule (List.mem_of_find?_eq_some hfound) hown
      have hnone : ∀ other ∈ (evaluateRule r left entry rule t).2, other.ruleId ≠ id :=
        scheduled_ne hrule
      have hnext := ih hleft (hspares.queueAfter hnone) hstands
      have hwaits := (find?_without waiting hother).trans hfound
      rw [List.filter_cons_of_pos (by simpa using hother), drain_cons_of_some hwaits,
        eraseP_without waiting hother, evaluateRule_without hown hrule, ← hnext,
        queueAfter_without _ hnone]

end Tick

end Harbormaster
