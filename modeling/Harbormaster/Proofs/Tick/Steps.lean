import Harbormaster.Engine.Basic
import Harbormaster.Proofs.Action.Deeds
import Harbormaster.Proofs.Conflict.Ends
import Harbormaster.Proofs.Tick.Turns

/-!
Ticks as sequences of actions. Whatever the rules of a tick ask for, and in whatever
order they come, its stage is led to from the one that it began with by actions of
its rules, one after the other. So what every step preserves holds at the end of the
tick and at all times before. Rules that ask for no others have their turns one after
the other.
-/

namespace Harbormaster

namespace Stage

variable {s : Stage} {known : String → Bool}

inductive Step (s : Stage) (known : String → Bool) (rule : Rule) (action : Action) :
    Stage → Prop where
  | nothing : Step s known rule action s
  | wrote {target message : String} {value before : Value} {range : Option ClampRange}
      {ledger : Ledger} {world : World} {outcome : Except Failure WriteOutcome}
      (hdeed : Deed.ofAction known rule action s.world =
        .ok (.write target value range before message))
      (hend : Ledger.End s.ledger s.world (requestOf rule action target value range) ledger world
        outcome) : Step s known rule action { s with ledger, world }
  | spawned {request : SpawnRequest}
      (hdeed : Deed.ofAction known rule action s.world = .ok (.spawn request)) :
      Step s known rule action (s.performSpawn action request).stage

theorem step_execute (s : Stage) (known : String → Bool) (rule : Rule) (action : Action) :
    Step s known rule action (s.execute known rule action).stage := by
  unfold execute
  cases hdeed : Deed.ofAction known rule action s.world with
  | error failure => exact .nothing
  | ok deed =>
    cases deed with
    | recommend | trigger | log => exact .nothing
    | spawn request => exact .spawned hdeed
    | write target value range before message =>
      exact .wrote hdeed (Ledger.end_write s.ledger s.world
        (requestOf rule action target value range))

/-- The stage after actions of rules, one after the other. -/
def after (s : Stage) (known : String → Bool) (steps : List (Rule × Action)) : Stage :=
  steps.foldl (fun s step => (s.execute known step.1 step.2).stage) s

theorem after_append (s : Stage) (known : String → Bool) (former later : List (Rule × Action)) :
    s.after known (former ++ later) = (s.after known former).after known later :=
  List.foldl_append

/-- What every step of a sequence preserves, the sequence preserves. -/
theorem after_preserves_of_mem {P : Stage → Prop} {steps : List (Rule × Action)}
    (hstep : ∀ step ∈ steps, ∀ {s s'}, P s → Step s known step.1 step.2 s' → P s')
    (hstart : P s) : P (s.after known steps) := by
  induction steps generalizing s with
  | nil => exact hstart
  | cons step rest ih =>
    apply ih fun later hlater => hstep later (List.mem_cons_of_mem _ hlater)
    exact hstep step List.mem_cons_self hstart (step_execute s known step.1 step.2)

theorem after_preserves {P : Stage → Prop}
    (hstep : ∀ {s s' rule action}, P s → Step s known rule action s' → P s') (hstart : P s)
    (steps : List (Rule × Action)) : P (s.after known steps) :=
  after_preserves_of_mem (fun _ _ => hstep) hstart

/-- Only a trigger asks for a rule. -/
theorem trigger_of_request {rule : Rule} {action : Action} {a : Application}
    (happlied : (s.execute known rule action).result = .ok a) (hrequest : a.triggerRequest ≠ none) :
    ∃ target, Deed.ofAction known rule action s.world = .ok (.trigger target) := by
  unfold execute at happlied
  cases hdeed : Deed.ofAction known rule action s.world with
  | error failure =>
    rw [hdeed] at happlied
    cases happlied
  | ok deed =>
    simp only [hdeed] at happlied
    cases deed with
    | trigger target => exact ⟨target, rfl⟩
    | recommend | spawn | log =>
      cases happlied
      exact absurd rfl hrequest
    | write target value range before message =>
      have hwrote := wrote_performWrite s rule action target value range before message
      simp only [perform] at happlied
      generalize (s.performWrite rule action target value range before message).result = result
        at hwrote happlied
      cases hwrote with
      | @intro _ _ outcome =>
        cases outcome with
        | error => cases happlied
        | ok outcome =>
          cases happlied
          obtain ⟨_, hwritten⟩ := Application.written_eq action before outcome message
          refine absurd ?_ hrequest
          exact congrArg Application.triggerRequest hwritten

/-- An action that asks for a rule does nothing else. -/
theorem stage_of_request {rule : Rule} {action : Action} {a : Application}
    (happlied : (s.execute known rule action).result = .ok a) (hrequest : a.triggerRequest ≠ none) :
    (s.execute known rule action).stage = s := by
  obtain ⟨target, hdeed⟩ := trigger_of_request happlied hrequest
  unfold execute
  rw [hdeed]
  rfl

theorem kind_of_request {rule : Rule} {action : Action} {a : Application}
    (happlied : (s.execute known rule action).result = .ok a) (hrequest : a.triggerRequest ≠ none) :
    action.kind = .triggerRule := by
  obtain ⟨target, hdeed⟩ := trigger_of_request happlied hrequest
  cases Deed.of_ofAction hdeed with
  | trigger _ hasks => exact hasks

end Stage

namespace Tick

variable {r : TickRules} {waiting rules : List Rule} {source entry : QueueEntry} {rule : Rule}
  {t : Tick} {queue rest : List QueueEntry}

/-- The turn of a rule consists of some of its actions. -/
theorem stage_evaluateRule (r : TickRules) (waiting : List Rule) (source : QueueEntry)
    (rule : Rule) (t : Tick) :
    ∃ steps : List (Rule × Action), (∀ step ∈ steps, step.1 = rule ∧ step.2 ∈ rule.actions) ∧
      (evaluateRule r waiting source rule t).1.stage = t.stage.after r.known steps := by
  refine evaluateRule_preserves (P := fun t' _ =>
    ∃ steps : List (Rule × Action), (∀ step ∈ steps, step.1 = rule ∧ step.2 ∈ rule.actions) ∧
      t'.stage = t.stage.after r.known steps) ?_ ?_
  · intro _ _ _ _
    exact ⟨[], fun _ hstep => (List.not_mem_nil hstep).elim, rfl⟩
  · rintro action haction t₁ _ t₂ _ ⟨steps, hsteps, hstage⟩ hact
    refine ⟨steps ++ [(rule, action)], ?_, ?_⟩
    · intro step hstep
      rcases List.mem_append.mp hstep with hformer | hlast
      · exact hsteps step hformer
      · cases List.mem_singleton.mp hlast
        exact ⟨rfl, haction⟩
    · rw [hact.stage, hstage, Stage.after_append]
      rfl

/-- Working off the queue consists of actions of the rules that wait. -/
theorem stage_drain :
    ∃ steps : List (Rule × Action), (∀ step ∈ steps, step.1 ∈ rules ∧ step.2 ∈ step.1.actions) ∧
      (drain r rules queue t).stage = t.stage.after r.known steps := by
  have hend : ∃ left : List Rule, (∀ rule ∈ left, rule ∈ rules) ∧
      ∃ steps : List (Rule × Action),
        (∀ step ∈ steps, step.1 ∈ rules ∧ step.2 ∈ step.1.actions) ∧
        (drain r rules queue t).stage = t.stage.after r.known steps := by
    refine drain_preserves (P := fun waiting _ t' => (∀ rule ∈ waiting, rule ∈ rules) ∧
      ∃ steps : List (Rule × Action),
        (∀ step ∈ steps, step.1 ∈ rules ∧ step.2 ∈ step.1.actions) ∧
        t'.stage = t.stage.after r.known steps) ?_ ?_ ?_
    · rintro waiting entry rest t' _ ⟨hwaiting, hsteps⟩
      obtain ⟨_, _, heq⟩ := t'.noteIgnored_annotates entry
      rw [heq]
      exact ⟨hwaiting, hsteps⟩
    · rintro waiting entry rest t' rule hrule ⟨hwaiting, steps, hsteps, hstage⟩
      obtain ⟨more, hmore, hturn⟩ :=
        stage_evaluateRule r (waiting.eraseP (·.id = entry.ruleId)) entry rule t'
      refine ⟨fun other hother => hwaiting other (List.mem_of_mem_eraseP hother),
        steps ++ more, ?_, ?_⟩
      · intro step hstep
        rcases List.mem_append.mp hstep with hformer | hlater
        · exact hsteps step hformer
        · obtain ⟨hown, haction⟩ := hmore step hlater
          rw [hown]
          exact ⟨hwaiting rule (List.mem_of_find?_eq_some hrule), haction⟩
      · rw [hturn, hstage, Stage.after_append]
    · exact ⟨fun _ h => h, [], fun _ hstep => (List.not_mem_nil hstep).elim, rfl⟩
  obtain ⟨_, _, hsteps⟩ := hend
  exact hsteps

/-- The rule in front of the queue has its turn, and then those that come after it. -/
theorem drain_cons_of_some (h : waiting.find? (·.id = entry.ruleId) = some rule) :
    drain r waiting (entry :: rest) t =
      drain r (waiting.eraseP (·.id = entry.ruleId))
        ((evaluateRule r (waiting.eraseP (·.id = entry.ruleId)) entry rule t).1.queueAfter
          (evaluateRule r (waiting.eraseP (·.id = entry.ruleId)) entry rule t).2 rest)
        (evaluateRule r (waiting.eraseP (·.id = entry.ruleId)) entry rule t).1 := by
  rw [drain]
  split
  · rename_i hnone
    rw [h] at hnone
    cases hnone
  · rename_i hsome
    rw [h] at hsome
    cases hsome
    rfl

/-- An entry for a rule that does not wait any more leaves a note at most. -/
theorem drain_cons_of_none (h : waiting.find? (·.id = entry.ruleId) = none) :
    drain r waiting (entry :: rest) t = drain r waiting rest (t.noteIgnored entry) := by
  rw [drain]
  split
  · rfl
  · rename_i hsome
    rw [h] at hsome
    cases hsome

/-- A rule that asks for no other schedules nothing. -/
theorem scheduled_evaluateRule (hquiet : ∀ action ∈ rule.actions, action.kind ≠ .triggerRule) :
    (evaluateRule r waiting source rule t).2 = [] := by
  refine evaluateRule_preserves (P := fun _ scheduled => scheduled = []) (fun _ _ _ _ => rfl) ?_
  intro action haction t₁ scheduled t₂ _ hbefore hact
  cases hact with
  | failed | applied | ignored | overflowed => exact hbefore
  | queued hresult hrequest =>
    refine absurd (Stage.kind_of_request hresult ?_) (hquiet action haction)
    rw [hrequest]
    exact Option.some_ne_none _

def turns (r : TickRules) : List Rule → Tick → Tick
  | [], t => t
  | rule :: rest, t => turns r rest (evaluateRule r rest (.base rule) rule t).1

/-- Where no rule asks for another one, every rule has its turn at its own place. -/
theorem drain_eq_turns
    (hquiet : ∀ rule ∈ rules, ∀ action ∈ rule.actions, action.kind ≠ .triggerRule) :
    drain r rules (rules.map QueueEntry.base) t = turns r rules t := by
  induction rules generalizing t with
  | nil =>
    rw [List.map_nil, drain]
    rfl
  | cons rule rest ih =>
    have hfound : (rule :: rest).find? (·.id = (QueueEntry.base rule).ruleId) = some rule := by
      simp [QueueEntry.base]
    have hleft : (rule :: rest).eraseP (·.id = (QueueEntry.base rule).ruleId) = rest := by
      simp [QueueEntry.base]
    have hqueue : ∀ t : Tick,
        t.queueAfter [] (rest.map QueueEntry.base) = rest.map QueueEntry.base := by
      refine fun t => queueAfter_nil fun _ entry hentry => ?_
      obtain ⟨_, -, rfl⟩ := List.mem_map.mp hentry
      rfl
    have hnothing : (evaluateRule r rest (.base rule) rule t).2 = [] :=
      scheduled_evaluateRule (hquiet rule List.mem_cons_self)
    rw [List.map_cons, drain_cons_of_some hfound, hleft, hnothing, hqueue, turns]
    exact ih fun other hother => hquiet other (List.mem_cons_of_mem _ hother)

end Tick

namespace Engine

/-- The stage that a tick begins with: the inputs are applied, and no rule has had
its turn. -/
def start (e : Engine) : Stage :=
  (e.beginTick e.state.stored.time e.runTick.2.world).stage

/-- The stage that a tick ends with is led to by actions of its rules. -/
theorem stage_runTick (e : Engine) :
    ∃ steps : List (Rule × Action), (∀ step ∈ steps, step.1 ∈ e.rules ∧ step.2 ∈ step.1.actions) ∧
      e.runTick.1.stage = e.start.after e.tickRules.known steps :=
  Tick.stage_drain

end Engine

end Harbormaster
