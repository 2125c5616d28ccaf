import Harbormaster.Proofs.Tick.Coverage
import Harbormaster.Proofs.Tick.Steps

/-!
The moments of a tick: the ticks in between at which a rule looks at the world, be it for
its conditions or for one of its actions, and the one that is left in the end. What the
parts of a turn preserve lasts, and then holds at every moment, so that an invariant that
has to hold whenever rules look is shown once for each part. While a rule has its turn it
is the last one among those evaluated and none of the others; that is all that a part of
a turn is told of the order of the rules.
-/

namespace Harbormaster

namespace Tick

/-- The ticks that `t` comes to while the queue is worked off: between two entries, in
front of an action of the rule that has its turn, and with the queue run out. What is
noticed by then is left open. -/
inductive Moment (r : TickRules) : List Rule → List QueueEntry → Tick → Tick → Prop where
  | now {waiting : List Rule} {queue : List QueueEntry} {t : Tick} : Moment r waiting queue t t
  | noted {waiting : List Rule} {entry : QueueEntry} {rest : List QueueEntry} {t t' : Tick}
      (hnone : waiting.find? (·.id = entry.ruleId) = none)
      (hlater : Moment r waiting rest (t.noteIgnored entry) t') :
      Moment r waiting (entry :: rest) t t'
  | acting {waiting : List Rule} {entry : QueueEntry} {rest : List QueueEntry} {t : Tick}
      {rule : Rule} {former : List Action} (notices : List Notice)
      (hrule : waiting.find? (·.id = entry.ruleId) = some rule)
      (hfires : (evaluateConditions rule.conditions rule.junction t.stage.world).triggered = true)
      (hformer : former <+: rule.actions) :
      Moment r waiting (entry :: rest) t
        (applyActions r (waiting.eraseP (·.id = entry.ruleId)) entry rule former
          (t.opened entry rule notices) []).1
  | turned {waiting : List Rule} {entry : QueueEntry} {rest : List QueueEntry} {t t' : Tick}
      {rule : Rule} (hrule : waiting.find? (·.id = entry.ruleId) = some rule)
      (hlater : Moment r (waiting.eraseP (·.id = entry.ruleId))
        ((evaluateRule r (waiting.eraseP (·.id = entry.ruleId)) entry rule t).1.queueAfter
          (evaluateRule r (waiting.eraseP (·.id = entry.ruleId)) entry rule t).2 rest)
        (evaluateRule r (waiting.eraseP (·.id = entry.ruleId)) entry rule t).1 t') :
      Moment r waiting (entry :: rest) t t'

/-- The end of a tick is one of its moments. -/
theorem moment_drain (r : TickRules) (waiting : List Rule) (queue : List QueueEntry) (t : Tick) :
    Moment r waiting queue t (drain r waiting queue t) := by
  fun_induction drain r waiting queue t with
  | case1 => exact .now
  | case2 _ _ _ _ hfound ih => exact .noted hfound ih
  | case3 waiting t entry rest rule hfound left t' scheduled hturned ih =>
    refine .turned hfound ?_
    rw [hturned]
    exact ih

/-- What every part of a turn preserves. -/
structure Lasting (r : TickRules) (P : Tick → Prop) : Prop where
  /-- An entry for a rule that has had its turn. -/
  noted : ∀ {t : Tick} (entry : QueueEntry), P t → P (t.noteIgnored entry)
  /-- The draft of a rule that has not had its turn. -/
  opened : ∀ {t : Tick} {rule : Rule} (source : QueueEntry) (notices : List Notice),
    rule.id ∉ t.evaluated → P t → P (t.opened source rule notices)
  /-- An action of the rule that has its turn. -/
  act : ∀ {waiting : List Rule} {source : QueueEntry} {rule : Rule} {action : Action}
    {t t' : Tick} {scheduled scheduled' : List QueueEntry} {ids : List String},
    t.evaluated = ids ++ [rule.id] → rule.id ∉ ids →
      Act r waiting source rule action t scheduled t' scheduled' → P t → P t'

/-- A turn begins with a draft in which there is nothing but what its conditions leave. -/
theorem opening_eq (t : Tick) (source : QueueEntry) (rule : Rule) :
    ∃ outcome sideEffects failures, t.opening source rule =
      { Draft.new rule t.number (.ofText? source.triggeredBy) with
        outcome, sideEffects, failures } :=
  ⟨_, Draft.recordConditions_eq _ _⟩

@[simp] theorem opening_rule (t : Tick) (source : QueueEntry) (rule : Rule) :
    (t.opening source rule).rule = rule := by
  obtain ⟨_, _, _, heq⟩ := t.opening_eq source rule
  rw [heq]
  rfl

theorem evaluated_opened (t : Tick) (source : QueueEntry) (rule : Rule) (notices : List Notice) :
    (t.opened source rule notices).evaluated = t.evaluated ++ [rule.id] := by
  simp [opened, evaluated, note]

theorem told_opened (t : Tick) (source : QueueEntry) (rule : Rule) (notices : List Notice) :
    (t.opened source rule notices).told = t.told := by
  simp [opened, opening, told, note, Draft.new]

theorem stage_noteIgnored (t : Tick) (entry : QueueEntry) :
    (t.noteIgnored entry).stage = t.stage := by
  obtain ⟨_, _, heq⟩ := t.noteIgnored_annotates entry
  rw [heq]

theorem told_noteIgnored (t : Tick) (entry : QueueEntry) :
    (t.noteIgnored entry).told = t.told := by
  obtain ⟨g, hg, heq⟩ := t.noteIgnored_annotates entry
  exact told_of_annotates hg (by rw [heq])

namespace Lasting

variable {r : TickRules} {P : Tick → Prop} {rules waiting : List Rule} {source : QueueEntry}
  {rule : Rule} {t t' : Tick} {queue : List QueueEntry}

/-- What lasts goes on after any number of actions of a rule. -/
theorem acting (hP : Lasting r P) (hnew : rule.id ∉ t.evaluated) (h : P t)
    (notices : List Notice) (actions : List Action) :
    P (applyActions r waiting source rule actions (t.opened source rule notices) []).1 := by
  have hturn : (applyActions r waiting source rule actions (t.opened source rule notices)
      []).1.evaluated = t.evaluated ++ [rule.id] ∧
        P (applyActions r waiting source rule actions (t.opened source rule notices) []).1 := by
    refine applyActions_preserves (P := fun t' _ =>
      t'.evaluated = t.evaluated ++ [rule.id] ∧ P t') ?_
      ⟨evaluated_opened t source rule notices, hP.opened source notices hnew h⟩
    rintro action _ t₁ _ t₂ _ ⟨hlast, hbefore⟩ hact
    exact ⟨hact.evaluated.trans hlast, hP.act hlast hnew hact hbefore⟩
  exact hturn.2

theorem turn (hP : Lasting r P) (hnew : rule.id ∉ t.evaluated) (h : P t) :
    P (evaluateRule r waiting source rule t).1 := by
  have hturn : (evaluateRule r waiting source rule t).1.evaluated = t.evaluated ++ [rule.id] ∧
      P (evaluateRule r waiting source rule t).1 := by
    refine evaluateRule_preserves_of_opened (P := fun t' _ =>
      t'.evaluated = t.evaluated ++ [rule.id] ∧ P t') ?_ ?_
    · exact fun notices =>
        ⟨evaluated_opened t source rule notices, hP.opened source notices hnew h⟩
    · rintro action _ t₁ _ t₂ _ ⟨hlast, hbefore⟩ hact
      exact ⟨hact.evaluated.trans hlast, hP.act hlast hnew hact hbefore⟩
  exact hturn.2

/-- What lasts holds at every moment. -/
theorem moment (hP : Lasting r P) (hdistinct : (rules.map (·.id)).Nodup)
    (haccounts : Accounts rules waiting t) (h : P t) (hmoment : Moment r waiting queue t t') :
    P t' := by
  induction hmoment with
  | now => exact h
  | @noted _ entry _ t _ _ _ ih =>
    refine ih ?_ (hP.noted entry h)
    unfold Accounts
    rwa [evaluated_noteIgnored]
  | acting notices hrule =>
    have hnew := haccounts.not_evaluated hdistinct (List.mem_of_find?_eq_some hrule)
    exact hP.acting hnew h notices _
  | turned hrule _ ih =>
    have hnew := haccounts.not_evaluated hdistinct (List.mem_of_find?_eq_some hrule)
    exact ih (haccounts.turn hrule) (hP.turn hnew h)

/-- What lasts may be used in showing what else does. -/
theorem and {Q : Tick → Prop} (hP : Lasting r P)
    (hnoted : ∀ {t : Tick} (entry : QueueEntry), P t → Q t → Q (t.noteIgnored entry))
    (hopened : ∀ {t : Tick} {rule : Rule} (source : QueueEntry) (notices : List Notice),
      rule.id ∉ t.evaluated → P t → Q t → Q (t.opened source rule notices))
    (hact : ∀ {waiting : List Rule} {source : QueueEntry} {rule : Rule} {action : Action}
      {t t' : Tick} {scheduled scheduled' : List QueueEntry} {ids : List String},
      t.evaluated = ids ++ [rule.id] → rule.id ∉ ids →
        Act r waiting source rule action t scheduled t' scheduled' → P t → P t' → Q t → Q t') :
    Lasting r fun t => P t ∧ Q t :=
  ⟨fun entry h => ⟨hP.noted entry h.1, hnoted entry h.1 h.2⟩,
    fun source notices hnew h =>
      ⟨hP.opened source notices hnew h.1, hopened source notices hnew h.1 h.2⟩,
    fun hlast hnew ha h =>
      ⟨hP.act hlast hnew ha h.1, hact hlast hnew ha h.1 (hP.act hlast hnew ha h.1) h.2⟩⟩

end Lasting

end Tick

namespace Engine

/-- The tick before its first rule. -/
def begun (e : Engine) : Tick := e.beginTick e.state.stored.time e.runTick.2.world

/-- A moment of the tick that comes next. -/
def Moment (e : Engine) (t : Tick) : Prop :=
  Tick.Moment e.tickRules e.rules (e.rules.map QueueEntry.base) e.begun t

theorem moment_begun (e : Engine) : e.Moment e.begun := .now

theorem moment_runTick (e : Engine) : e.Moment e.runTick.1 :=
  Tick.moment_drain e.tickRules e.rules _ e.begun

theorem Moment.lasting {e : Engine} {t : Tick} {P : Tick → Prop} (h : e.Moment t)
    (hP : Tick.Lasting e.tickRules P) (hdistinct : (e.rules.map (·.id)).Nodup)
    (hbegun : P e.begun) : P t := by
  refine hP.moment hdistinct ?_ hbegun h
  simp [Tick.Accounts, begun, beginTick, Tick.evaluated]

end Engine

end Harbormaster
