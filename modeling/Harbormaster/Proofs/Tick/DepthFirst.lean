import Harbormaster.Proofs.Rule.Order
import Harbormaster.Proofs.Tick.Chains
import Harbormaster.Proofs.Tick.Walk

/-!
The queue of a tick works depth first. Beside it stands a recursive procedure that
has no queue: it visits rules in a given order, skips those that were evaluated
already, and after the actions of a rule visits the rules that these asked for
before it goes on. While no chain overflows, the queue holds what the procedure has
yet to visit, the innermost call first, so both end on the same stage after the
same visits. Of ticks that overflow nothing is said here but that there are none
where the limit lets a chain run through all rules.
-/

namespace Harbormaster

def QueueEntry.visit (entry : QueueEntry) : Visit := ⟨entry.ruleId, entry.triggeredBy⟩

/-- What is recorded of a visit in the draft of its rule. -/
def Visit.recorded (v : Visit) : String × Value := (v.ruleId, .ofText? v.triggeredBy)

/-- A document keeps what is recorded of a visit. -/
theorem Visit.stored_recorded (v : Visit) : (v.recorded.1, v.recorded.2.stored) = v.recorded := by
  obtain ⟨rule, triggeredBy⟩ := v
  cases triggeredBy with
  | none | some => rfl

namespace Tick

variable {r : TickRules} {waiting : List Rule} {source : QueueEntry} {rule : Rule}
  {action : Action} {t t' : Tick} {scheduled scheduled' : List QueueEntry}

def visited (t : Tick) : List (String × Value) := t.drafts.map fun d => (d.rule.id, d.triggeredBy)

theorem visited_eq (t : Tick) : t.visited = t.beginnings.map fun b => (b.1.id, b.2.1) := by
  rw [beginnings, List.map_map]
  rfl

theorem visited_of_annotates {g : Draft → Draft} (hg : Draft.Annotates g)
    (h : t'.drafts = t.drafts.map g) : t'.visited = t.visited := by
  rw [visited_eq, beginnings_map hg.continues h, ← visited_eq]

theorem visited_noteIgnored (t : Tick) (entry : QueueEntry) :
    (t.noteIgnored entry).visited = t.visited := by
  rw [visited_eq, beginnings_noteIgnored, ← visited_eq]

theorem halted_recordApplied (t : Tick) (rule : Rule) (a : Application) :
    (t.recordApplied rule a).halted = t.halted := by
  obtain ⟨_, _, heq⟩ := recordApplied_annotates t rule a
  rw [heq]
  rfl

namespace Act

/-- Chaining that has been halted stays halted. -/
theorem halted (h : Act r waiting source rule action t scheduled t' scheduled')
    (hhalted : t.halted = true) : t'.halted = true := by
  cases h with
  | failed => exact hhalted
  | applied | queued | ignored =>
    rw [halted_recordApplied]
    exact hhalted
  | overflowed => rfl

end Act

theorem halted_applyActions {actions : List Action} (h : t.halted = true) :
    (applyActions r waiting source rule actions t scheduled).1.halted = true :=
  applyActions_preserves (P := fun t' _ => t'.halted = true)
    (fun _ _ _ _ _ _ hbefore hact => hact.halted hbefore) h

theorem halted_evaluateRule (h : t.halted = true) :
    (evaluateRule r waiting source rule t).1.halted = true :=
  evaluateRule_preserves (P := fun t' _ => t'.halted = true) (fun _ _ _ _ => h)
    fun _ _ _ _ _ _ hbefore hact => hact.halted hbefore

theorem halted_noteIgnored (t : Tick) (entry : QueueEntry) :
    (t.noteIgnored entry).halted = t.halted := by
  obtain ⟨_, _, heq⟩ := t.noteIgnored_annotates entry
  rw [heq]
  rfl

theorem halted_drain {queue : List QueueEntry} (h : t.halted = true) :
    (drain r waiting queue t).halted = true := by
  have hend : ∃ left : List Rule, (drain r waiting queue t).halted = true := by
    refine drain_preserves (P := fun _ _ t' => t'.halted = true) ?_ ?_ h
    · intro _ entry _ t' _ hbefore
      rwa [halted_noteIgnored]
    · intro _ _ _ _ _ _ hbefore
      exact halted_evaluateRule hbefore
  obtain ⟨_, hhalted⟩ := hend
  exact hhalted

section Scheduling

variable {asked : List String} {limit : Nat} {target : String}

theorem asked_of_visits (h : scheduled.map QueueEntry.visit = Walk.below rule asked) :
    scheduled.map (·.ruleId) = asked := by
  have hids := congrArg (List.map Visit.ruleId) h
  simpa [Walk.below, QueueEntry.visit, Function.comp_def] using hids

private theorem contains_ids (scheduled : List QueueEntry) (target : String) :
    (scheduled.map (·.ruleId)).contains target = scheduled.any (·.ruleId = target) := by
  induction scheduled with
  | nil => rfl
  | cons entry rest ih =>
    rw [List.map_cons, List.contains_cons, List.any_cons, ih]
    congr 1
    exact decide_eq_decide.mpr eq_comm

/-- A request is queued where the procedure accepts it, and ignored elsewhere. -/
theorem accepts_of_queued {entry : QueueEntry} (hopen : t.halted = false)
    (h : t.schedule limit waiting source scheduled target = .queued entry) :
    Walk.accepts waiting (scheduled.map (·.ruleId)) target = true ∧
      entry.visit = ⟨target, some source.ruleId⟩ := by
  unfold schedule at h
  rw [if_neg (by simp [hopen])] at h
  split at h
  · cases h
  · rename_i haccepted
    dsimp only at h
    split at h
    · cases h
    · cases h
      refine ⟨?_, rfl⟩
      rw [Walk.accepts, contains_ids]
      simpa using haccepted

theorem accepts_of_ignored {note : String} (hopen : t.halted = false)
    (h : t.schedule limit waiting source scheduled target = .ignored note) :
    Walk.accepts waiting (scheduled.map (·.ruleId)) target = false := by
  unfold schedule at h
  rw [if_neg (by simp [hopen])] at h
  split at h
  · rename_i hrefused
    rw [Walk.accepts, contains_ids]
    simpa [or_iff_not_imp_left] using hrefused
  · dsimp only at h
    split at h <;> cases h

end Scheduling

theorem applyActions_cons (action : Action) (rest : List Action) :
    applyActions r waiting source rule (action :: rest) t scheduled =
      match (t.stage.execute r.known rule action).result with
      | .error failure => ((t.perform r rule action).recordFailed rule action failure, scheduled)
      | .ok a =>
        match a.triggerRequest with
        | none =>
          applyActions r waiting source rule rest ((t.perform r rule action).recordApplied rule a)
            scheduled
        | some target =>
          match (t.perform r rule action).schedule r.maxChainDepth waiting source scheduled
            target with
          | .queued entry =>
            applyActions r waiting source rule rest
              ((t.perform r rule action).recordApplied rule a) (scheduled ++ [entry])
          | .ignored note =>
            applyActions r waiting source rule rest
              (((t.perform r rule action).updateDraft rule.id (·.addSideEffect note)).recordApplied
                rule { a with triggerRequest := none, message := a.message ++ " (ignored)" })
              scheduled
          | .overflowed overflow =>
            (((t.perform r rule action).halt overflow).recordFailed rule action
              (.chainOverflow overflow.ruleId (.number overflow.depth) (.number overflow.limit)),
              scheduled) := rfl

/-- Without an overflow the actions of a rule do to the stage what they do to it in
the procedure, and schedule the visits below the rule. -/
theorem applyActions_walks {actions : List Action} {asked : List String}
    (hsource : source.ruleId = rule.id)
    (hasked : scheduled.map QueueEntry.visit = Walk.below rule asked)
    (hopen : (applyActions r waiting source rule actions t scheduled).1.halted = false) :
    (applyActions r waiting source rule actions t scheduled).1.stage =
        (Walk.applyActions r.known waiting rule actions t.stage asked).1 ∧
      (applyActions r waiting source rule actions t scheduled).2.map QueueEntry.visit =
        Walk.below rule (Walk.applyActions r.known waiting rule actions t.stage asked).2 := by
  induction actions generalizing t scheduled asked with
  | nil => exact ⟨rfl, hasked⟩
  | cons action rest ih =>
    have hids := asked_of_visits hasked
    have hstart : t.halted = false := by
      by_contra hhalted
      rw [halted_applyActions (by simpa using hhalted)] at hopen
      cases hopen
    have hperformed : (t.perform r rule action).halted = false := hstart
    rw [applyActions_cons] at hopen ⊢
    unfold Walk.applyActions
    dsimp only
    cases hresult : (t.stage.execute r.known rule action).result with
    | error failure => exact ⟨rfl, hasked⟩
    | ok a =>
      simp only [hresult] at hopen ⊢
      cases hrequest : a.triggerRequest with
      | none =>
        have hact : Act r waiting source rule action t scheduled _ _ :=
          Act.applied hresult hrequest
        have hstage := hact.stage
        simp only [hrequest, Option.filter_none, Option.toList_none, List.append_nil] at hopen ⊢
        rw [← hstage]
        exact ih hasked hopen
      | some target =>
        simp only [hrequest] at hopen ⊢
        cases hschedule : (t.perform r rule action).schedule r.maxChainDepth waiting source
            scheduled target with
        | queued entry =>
          have hstage := (Act.queued (t := t) hresult hrequest hschedule).stage
          obtain ⟨haccepts, hvisit⟩ := accepts_of_queued hperformed hschedule
          rw [hids] at haccepts
          rw [hsource] at hvisit
          simp only [hschedule, Option.filter_some_pos haccepts, Option.toList_some] at hopen ⊢
          rw [← hstage]
          refine ih ?_ hopen
          rw [List.map_append, hasked, List.map_singleton, hvisit]
          simp [Walk.below]
        | ignored note =>
          have hstage := (Act.ignored (t := t) hresult hrequest hschedule).stage
          have hrefused := accepts_of_ignored hperformed hschedule
          rw [hids] at hrefused
          simp only [hschedule, Option.filter_some_neg hrefused, Option.toList_none,
            List.append_nil] at hopen ⊢
          rw [← hstage]
          exact ih hasked hopen
        | overflowed overflow =>
          rw [hschedule] at hopen
          cases hopen

theorem evaluateRule_walks (hsource : source.ruleId = rule.id)
    (hopen : (evaluateRule r waiting source rule t).1.halted = false) :
    (evaluateRule r waiting source rule t).1.stage =
        (Walk.turn r.known waiting rule t.stage).1 ∧
      (evaluateRule r waiting source rule t).2.map QueueEntry.visit =
        Walk.below rule (Walk.turn r.known waiting rule t.stage).2 := by
  unfold evaluateRule at hopen ⊢
  unfold Walk.turn
  dsimp only at hopen ⊢
  by_cases hfires :
      (evaluateConditions rule.conditions rule.junction t.stage.world).triggered = true
  · simp only [if_pos hfires] at hopen ⊢
    have hasked : ([] : List QueueEntry).map QueueEntry.visit = Walk.below rule [] := rfl
    exact applyActions_walks hsource hasked hopen
  · simp only [if_neg hfires, Walk.below, List.map_nil, and_self]

theorem visited_evaluateRule (hsource : source.ruleId = rule.id) :
    (evaluateRule r waiting source rule t).1.visited = t.visited ++ [source.visit.recorded] := by
  rw [visited_eq, beginnings_evaluateRule, List.map_append, ← visited_eq, Visit.recorded,
    QueueEntry.visit, hsource]
  rfl

structure Follows (t : Tick) (w : Walk) : Prop where
  stage : t.stage = w.stage
  visited : t.visited = w.visits.map Visit.recorded

theorem Follows.noteIgnored {w : Walk} (h : t.Follows w) (entry : QueueEntry) :
    (t.noteIgnored entry).Follows w := by
  obtain ⟨_, _, heq⟩ := t.noteIgnored_annotates entry
  refine ⟨?_, (t.visited_noteIgnored entry).trans h.visited⟩
  rw [heq]
  exact h.stage

/-- A turn of the tick is a turn of the walk, and schedules what lies below it. -/
theorem Follows.turn {w : Walk} (h : t.Follows w) (hsource : source.ruleId = rule.id)
    (hopen : (evaluateRule r (w.waiting.eraseP (·.id = source.ruleId)) source rule t).1.halted =
      false) :
    (evaluateRule r (w.waiting.eraseP (·.id = source.ruleId)) source rule t).1.Follows
        (w.evaluate r.known source.visit rule).1 ∧
      (evaluateRule r (w.waiting.eraseP (·.id = source.ruleId)) source rule t).2.map
          QueueEntry.visit = (w.evaluate r.known source.visit rule).2 := by
  obtain ⟨hstage, hvisits⟩ := evaluateRule_walks hsource hopen
  rw [h.stage] at hstage hvisits
  refine ⟨⟨hstage, ?_⟩, hvisits⟩
  rw [visited_evaluateRule hsource, h.visited]
  simp [Walk.evaluate]

/-- Working off the queue without an overflow is the walk through what is queued. -/
theorem Follows.drain {w : Walk} {queue : List QueueEntry} (h : t.Follows w)
    (hopen : (Tick.drain r w.waiting queue t).halted = false) :
    (Tick.drain r w.waiting queue t).Follows (w.after r.known (queue.map QueueEntry.visit)) := by
  generalize hwaiting : w.waiting = waiting at hopen ⊢
  fun_induction Tick.drain r waiting queue t generalizing w with
  | case1 waiting t => simpa using h
  | case2 waiting t entry rest hfound ih =>
    subst hwaiting
    rw [List.map_cons, Walk.after_cons_of_none hfound]
    exact ih (h.noteIgnored entry) rfl hopen
  | case3 waiting t entry rest rule hfound left t' scheduled hturned =>
    rename_i ih
    subst hwaiting
    have hrule : entry.ruleId = rule.id := by simpa [eq_comm] using List.find?_some hfound
    have hstill : t'.halted = false := by
      by_contra hhalted
      rw [halted_drain (by simpa using hhalted)] at hopen
      cases hopen
    have hturn := h.turn hrule (r := r)
    rw [hturned] at hturn
    obtain ⟨hfollows, hbelow⟩ := hturn hstill
    rw [queueAfter_of_open hstill] at ih hopen ⊢
    rw [List.map_cons, Walk.after_cons hfound, ← hbelow, ← List.map_append]
    exact ih hfollows rfl hopen

end Tick

namespace Engine

variable {initial : World} {rules : RuleSet} {options : EngineOptions} {e : Engine}
  {notice : Notice}

/-- What the recursive procedure makes of a tick: with the inputs applied, it visits
the rules in the given order. -/
def walk (e : Engine) (order : List Rule) : Walk :=
  let start := e.beginTick e.state.stored.time e.runTick.2.world
  Walk.after e.tickRules.known ⟨start.stage, order, []⟩ (order.map fun rule => ⟨rule.id, none⟩)

/-- The world in which a tick ends that follows a walk. -/
def worldAfter (e : Engine) (w : Walk) : World :=
  { w.stage.world with
    events := w.stage.bus.listed
    timeStep := .number (e.state.stored.time + 1) }

theorem follows_runTick (hopen : e.runTick.1.halted = false) :
    e.runTick.1.Follows (e.walk e.rules) := by
  have hstart : (e.beginTick e.state.stored.time e.runTick.2.world).Follows
      ⟨(e.beginTick e.state.stored.time e.runTick.2.world).stage, e.rules, []⟩ := ⟨rfl, rfl⟩
  have hend : e.runTick.1.Follows _ := hstart.drain hopen
  rw [List.map_map] at hend
  exact hend

/-- A tick in which no chain overflows evaluates the rules that the recursive
procedure evaluates, in its order and asked for by the same rules, and commits the
world that it ends with. The procedure visits the rules by descending priority and,
where priorities are equal, as declared. -/
theorem tick_visits_depth_first (hnew : new initial rules options = .ok (e, notice)) :
    ((∀ rule ∈ rules.rules, rule.rank.isNaN = false) → Rule.InOrder rules.rules e.rules) ∧
      (∀ inputs : List Input, (∀ input ∈ inputs, input.stored.isNameable = true) →
        ∃ s, (e.after (inputs.map .submit)).tick.snapshot = .ok s) ∧
      ∀ calls s, (e.after calls).tick.snapshot = .ok s → s.record.chainOverflow = none →
        s.record.explanations.map (fun x => (x.ruleId, x.triggeredBy)) =
            ((e.after calls).walk e.rules).visits.map Visit.recorded ∧
          s.state = ((e.after calls).worldAfter ((e.after calls).walk e.rules)).stored := by
  have hrules : e.rules = Rule.byPriority rules.rules := (of_new hnew).1
  refine ⟨?_, fun _ => first_tick_commits hnew, ?_⟩
  · intro hnumbers
    rw [hrules]
    exact Rule.inOrder_byPriority hnumbers
  · intro calls s hs hopen
    obtain ⟨hrecord, hstate⟩ := snapshot_of_tick hs
    have hhalted : (e.after calls).runTick.1.halted = false := by
      rw [hrecord] at hopen
      simp [Tick.halted, show (e.after calls).runTick.1.overflow = none from hopen]
    have hfollows := follows_runTick hhalted
    rw [(sameSetup_after e calls).rules] at hfollows
    constructor
    · have hexplained : s.record.explanations.map (fun x => (x.ruleId, x.triggeredBy)) =
          (e.after calls).runTick.1.visited.map fun v => (v.1, v.2.stored) := by
        rw [hrecord]
        simp [reportOf, TickReport.stored, Explanation.stored, Draft.build, Tick.visited,
          Function.comp_def]
      rw [hexplained, hfollows.visited, List.map_map]
      exact List.map_congr_left fun v _ => v.stored_recorded
    · have hnumber : (e.after calls).runTick.1.number = (e.after calls).state.stored.time :=
        Tick.drain_number _ _
      rw [hstate, finalWorld, worldAfter, hfollows.stage, hnumber]

def relay : RuleSet :=
  ⟨[asking "pilot" ["tug", "tug"], asking "tower" ["tug"], asking "tug" ["pilot"]], .standard⟩

def relayEngine : Engine :=
  { rules := Rule.byPriority relay.rules
    maxChainDepth := standardChainDepth
    policy := .standard
    translator := .builtIn
    store := ⟨(default : World).stored, []⟩
    bus := (EventBus.new .tick).load ∅
    pending := [] }

theorem rules_relayEngine : relayEngine.rules = relay.rules := by
  have hnumbers : ∀ rule ∈ relay.rules, rule.rank.isNaN = false := by decide +kernel
  have hsorted : relay.rules.Pairwise fun a b => b.outranks a = false := by decide +kernel
  unfold relayEngine
  rw [Rule.byPriority_eq_self hnumbers hsorted]

/-- The last rule has its turn below the first one, and the request of the second
one for it comes too late. -/
theorem visits_relayEngine :
    (relayEngine.walk relayEngine.rules).visits =
      [⟨"pilot", none⟩, ⟨"tug", some "pilot"⟩, ⟨"tower", none⟩] := by
  let known : String → Bool := fun id => relay.rules.any (·.id = id)
  have hknown : relayEngine.tickRules.known = known := by
    unfold tickRules TickRules.known
    rw [rules_relayEngine]
  unfold walk
  dsimp only
  rw [hknown, rules_relayEngine]
  generalize (relayEngine.beginTick _ _).stage = s
  have hpilot : Walk.evaluate known ⟨s, relay.rules, []⟩ ⟨"pilot", none⟩
      (asking "pilot" ["tug", "tug"]) =
      (⟨s, [asking "tower" ["tug"], asking "tug" ["pilot"]], [⟨"pilot", none⟩]⟩,
        [⟨"tug", some "pilot"⟩]) := rfl
  have htug : Walk.evaluate known
      ⟨s, [asking "tower" ["tug"], asking "tug" ["pilot"]], [⟨"pilot", none⟩]⟩
      ⟨"tug", some "pilot"⟩ (asking "tug" ["pilot"]) =
      (⟨s, [asking "tower" ["tug"]], [⟨"pilot", none⟩, ⟨"tug", some "pilot"⟩]⟩, []) := rfl
  have htower : Walk.evaluate known
      ⟨s, [asking "tower" ["tug"]], [⟨"pilot", none⟩, ⟨"tug", some "pilot"⟩]⟩
      ⟨"tower", none⟩ (asking "tower" ["tug"]) =
      (⟨s, [], [⟨"pilot", none⟩, ⟨"tug", some "pilot"⟩, ⟨"tower", none⟩]⟩, []) := rfl
  have hvisits : relay.rules.map (fun rule => (⟨rule.id, none⟩ : Visit)) =
      [⟨"pilot", none⟩, ⟨"tower", none⟩, ⟨"tug", none⟩] := rfl
  have hfirst : relay.rules.find? (·.id = "pilot") = some (asking "pilot" ["tug", "tug"]) := rfl
  have hsecond : [asking "tower" ["tug"], asking "tug" ["pilot"]].find? (·.id = "tug") =
      some (asking "tug" ["pilot"]) := rfl
  have hthird : [asking "tower" ["tug"]].find? (·.id = "tower") =
      some (asking "tower" ["tug"]) := rfl
  rw [hvisits, Walk.after_cons hfirst, hpilot, List.singleton_append, Walk.after_cons hsecond,
    htug, List.nil_append, Walk.after_cons hthird, htower, List.nil_append,
    Walk.after_cons_of_none rfl, Walk.after_nil]

theorem relay_visited :
    ∃ s, relayEngine.tick.snapshot = .ok s ∧
      s.record.explanations.map (fun x => (x.ruleId, x.triggeredBy)) =
        [("pilot", Value.absent), ("tug", "pilot"), ("tower", Value.absent)] := by
  obtain ⟨notice, hnew⟩ : ∃ notice, new default relay .standard = .ok (relayEngine, notice) :=
    ⟨_, rfl⟩
  obtain ⟨-, hfirst, hcommitted⟩ := tick_visits_depth_first hnew
  obtain ⟨s, hs⟩ := hfirst [] fun _ hnone => nomatch hnone
  have hlimit : relayEngine.rules.length ≤ relayEngine.maxChainDepth + 1 := by
    rw [rules_relayEngine]
    decide
  refine ⟨s, hs, ?_⟩
  rw [(hcommitted [] s hs (chainOverflow_eq_none hlimit hs)).1]
  exact congrArg (List.map Visit.recorded) visits_relayEngine

end Engine

end Harbormaster
