import Harbormaster.Proofs.Engine.Clock
import Harbormaster.Proofs.Engine.Commits
import Harbormaster.Proofs.Tick.Bystander

/-!
Engines with a rule and without it. As long as the rule does not fire and no other rule
asks for it, both are told the same and commit the same, but for the explanation of the
rule and for its being counted among those that were evaluated. The priorities have to be
numbers: by a priority that is none a rule can keep others apart that would otherwise
change places.
-/

namespace Harbormaster

/-- The rules of a set but one. -/
def RuleSet.without (rules : RuleSet) (id : String) : RuleSet :=
  { rules with rules := rules.rules.filter (·.id ≠ id) }

/-- A report without the explanation of a rule, in which the rule does not count among
those that were evaluated. -/
def TickReport.without (report : TickReport) (id : String) : TickReport :=
  { report with
    explanations := report.explanations.filter (·.ruleId ≠ id)
    stats := { report.stats with rulesEvaluated := .ofNat (report.explanations.length - 1) } }

def Snapshot.without (s : Snapshot) (id : String) : Snapshot :=
  { s with record := s.record.without id }

namespace Engine

/-- An engine without a rule, whose history says nothing of the rule. -/
def without (e : Engine) (id : String) : Engine :=
  { e with
    rules := e.rules.filter (·.id ≠ id)
    store := { e.store with commits := e.store.commits.map (Snapshot.without · id) } }

structure Unasked (e : Engine) (id : String) : Prop where
  distinct : (e.rules.map (·.id)).Nodup
  declared : id ∈ e.rules.map (·.id)
  quiet : ∀ rule ∈ e.rules, rule.id ≠ id → ∀ action ∈ rule.actions, ¬ action.AsksFor id

/-- A rule does not fire in the tick that an engine is about to run. -/
def Idles (e : Engine) (id : String) : Prop :=
  ∀ x ∈ (reportOf e.runTick.1 e.runTick.2).explanations, x.ruleId = id → x.triggered = false

/-- A rule fires in none of the ticks among the calls. A tick that is given up evaluates none. -/
def IdlesThrough (e : Engine) (id : String) (calls : List Call) : Prop :=
  ∀ former later, calls = former ++ .tick :: later →
    (e.after former).Nameable → (e.after former).Idles id

variable {e : Engine} {id : String} {initial : World} {rules : RuleSet}
  {options : EngineOptions} {notice : Notice}

theorem Unasked.after (h : e.Unasked id) (calls : List Call) : (e.after calls).Unasked id := by
  obtain ⟨hdistinct, hdeclared, hquiet⟩ := h
  have hrules := (sameSetup_after e calls).rules
  exact ⟨hrules ▸ hdistinct, hrules ▸ hdeclared, hrules ▸ hquiet⟩

theorem unasked_of_new (hnew : new initial rules options = .ok (e, notice))
    (hdeclared : ∃ rule ∈ rules.rules, rule.id = id)
    (hquiet : ∀ rule ∈ rules.rules, rule.id ≠ id → ∀ action ∈ rule.actions, ¬ action.AsksFor id) :
    e.Unasked id := by
  have hperm : e.rules.Perm rules.rules := perm_rules_after hnew []
  refine ⟨ids_after hnew [], ?_, fun rule hrule => hquiet rule (hperm.mem_iff.mp hrule)⟩
  obtain ⟨rule, hrule, rfl⟩ := hdeclared
  exact List.mem_map_of_mem (hperm.mem_iff.mpr hrule)

theorem state_without (e : Engine) (id : String) : (e.without id).state = e.state := by
  unfold state without Store.current
  rw [List.getLast?_map]
  cases e.store.commits.getLast? with
  | none | some => rfl

theorem nextTick_without (e : Engine) (id : String) :
    (e.without id).store.nextTick = e.store.nextTick := by
  simp [Store.nextTick, without]

theorem Idles.outcomes (h : e.Idles id) : (id, true) ∉ e.runTick.1.outcomes := by
  intro hfires
  obtain ⟨d, hd, heq⟩ := List.mem_map.mp hfires
  obtain ⟨hid, htriggered⟩ := Prod.mk.inj heq
  have hidle : d.outcome.triggered = false := h d.build (List.mem_map_of_mem hd) hid
  rw [htriggered] at hidle
  cases hidle

/-- The tick of an engine that lacks the rule. -/
theorem Unasked.runTick (h : e.Unasked id) (hidle : e.Idles id) :
    (e.without id).runTick = (e.runTick.1.without id, e.runTick.2) := by
  have hqueue : (e.rules.filter (·.id ≠ id)).map QueueEntry.base =
      (e.rules.map QueueEntry.base).filter (·.ruleId ≠ id) := by
    rw [List.filter_map]
    rfl
  have hspares : ∀ t, Tick.Spares id t (e.rules.map QueueEntry.base) := by
    intro t
    have hbase : ∀ entry ∈ e.rules.map QueueEntry.base, entry.triggeredBy = none := by
      intro entry hentry
      obtain ⟨_, -, rfl⟩ := List.mem_map.mp hentry
      rfl
    exact ⟨fun entry hentry _ => hbase entry hentry, fun _ => hbase⟩
  have hdrain := Tick.drain_without h.quiet (hspares _) hidle.outcomes
  rw [← hqueue] at hdrain
  unfold Engine.runTick
  dsimp only
  rw [state_without]
  exact congrArg (·, e.runTick.2) hdrain

/-- The rule has one explanation in every report, and it counts for nothing else. -/
theorem Unasked.report (h : e.Unasked id) (hidle : e.Idles id) :
    (reportOf (e.runTick.1.without id) e.runTick.2).stored =
      (reportOf e.runTick.1 e.runTick.2).stored.without id := by
  have hevaluated : e.runTick.1.evaluated.Perm (e.rules.map (·.id)) :=
    Tick.drain_evaluated h.distinct _ rfl
  have hone : e.runTick.1.drafts.countP (·.rule.id = id) = 1 := by
    have hcount := List.count_eq_one_of_mem (hevaluated.nodup_iff.mpr h.distinct)
      (hevaluated.mem_iff.mpr h.declared)
    rw [Tick.evaluated, List.count, List.countP_map] at hcount
    exact hcount
  have hlength : (e.runTick.1.without id).drafts.length = e.runTick.1.drafts.length - 1 := by
    have hsum := List.length_eq_countP_add_countP (·.rule.id = id) (l := e.runTick.1.drafts)
    rw [Tick.without, ← List.countP_eq_length_filter]
    simp only [decide_not, Bool.not_eq_true, decide_eq_false_iff_not, ne_eq] at hsum ⊢
    omega
  have htriggered : ((e.runTick.1.without id).drafts.map Draft.build).filter (·.triggered) =
      (e.runTick.1.drafts.map Draft.build).filter (·.triggered) := by
    rw [List.filter_map, List.filter_map, Tick.without, List.filter_filter]
    congr 1
    refine List.filter_congr fun d hd => ?_
    rw [Bool.and_eq_left_iff_imp, decide_eq_true_iff]
    rintro hfires rfl
    exact Bool.false_ne_true ((hidle d.build (List.mem_map_of_mem hd) rfl).symm.trans hfires)
  have hkept : ((e.runTick.1.without id).drafts.map Draft.build).map Explanation.stored =
      ((e.runTick.1.drafts.map Draft.build).map Explanation.stored).filter (·.ruleId ≠ id) := by
    rw [List.map_map, List.map_map, List.filter_map]
    rfl
  unfold reportOf TickReport.stored TickReport.without
  dsimp only
  rw [hkept, htriggered, List.length_map, hlength, List.length_map, List.length_map]
  rfl

theorem Unasked.snapshot (h : e.Unasked id) (hnameable : e.Nameable) (hidle : e.Idles id) :
    (e.without id).tick.snapshot = e.tick.snapshot.map (Snapshot.without · id) := by
  have hsame : (e.without id).Nameable := hnameable
  rw [snapshot_eq hsame, snapshot_eq hnameable, h.runTick hidle, h.report hidle, nextTick_without]
  dsimp only
  rw [Tick.number_without]
  split
  · rfl
  · rfl

theorem Unasked.tick (h : e.Unasked id) (hidle : e.Nameable → e.Idles id) :
    (e.without id).tick.engine = e.tick.engine.without id := by
  by_cases hnameable : e.Nameable
  · have hsame : (e.without id).Nameable := hnameable
    have hsnapshot := h.snapshot hnameable (hidle hnameable)
    have hrun := h.runTick (hidle hnameable)
    cases hs : e.tick.snapshot with
    | ok s =>
      rw [hs] at hsnapshot
      rw [(engine_of_commit hsnapshot).2, (engine_of_commit hs).2, hrun]
      simp [without, Tick.without]
    | error failure =>
      rw [hs] at hsnapshot
      rw [engine_of_completed hsame hsnapshot, engine_of_completed hnameable hs, hrun]
      rfl
  · have hsame : ¬(e.without id).Nameable := hnameable
    rw [tick_of_not_nameable hsame, tick_of_not_nameable hnameable]
    rfl

theorem Unasked.call (h : e.Unasked id) {c : Call} (hidle : c = .tick → e.Nameable → e.Idles id) :
    (e.without id).call c = (e.call c).without id := by
  cases c with
  | submit | submitWrite | consume => rfl
  | tick => exact h.tick (hidle rfl)

/-- Call by call, both engines stay alike. -/
theorem Unasked.without_after (h : e.Unasked id) (calls : List Call)
    (hidle : e.IdlesThrough id calls) :
    (e.without id).after calls = (e.after calls).without id := by
  induction calls generalizing e with
  | nil => rfl
  | cons c rest ih =>
    have hfirst : (e.without id).call c = (e.call c).without id := by
      refine h.call ?_
      rintro rfl
      exact hidle [] rest rfl
    have hrest : (e.call c).IdlesThrough id rest := by
      rintro former later rfl
      exact hidle (c :: former) later rfl
    change ((e.without id).call c).after rest = _
    rw [hfirst]
    exact ih (h.after [c]) hrest

/-- An engine can be set up without the rule as well, and is then the one without it. -/
theorem new_without (hnew : new initial rules options = .ok (e, notice))
    (hnumbers : ∀ rule ∈ rules.rules, rule.rank.isNaN = false) (id : String) :
    ∃ notice', new initial (rules.without id) options = .ok (e.without id, notice') := by
  obtain ⟨hrules, hdistinct, -, hstore, -⟩ := of_new hnew
  have hfewer : ((rules.without id).rules.map (·.id)).Nodup :=
    hdistinct.sublist (List.filter_sublist.map _)
  have horder : Rule.byPriority (rules.without id).rules = e.rules.filter (·.id ≠ id) := by
    rw [hrules]
    exact Rule.byPriority_filter hnumbers _
  obtain ⟨notice', hnew'⟩ := new_of_rules hnew hfewer rfl
  refine ⟨notice', ?_⟩
  rw [hnew', horder, without, hstore]
  rfl

/-- A rule that does not fire leaves no trace but its own explanation. Where no other rule
asks for it and no tick of the run lets it fire, an engine that was set up without it comes
through the same calls to the same state, the same events and, tick by tick, to the same
history, but for what is told of the rule. -/
theorem idle_rule_leaves_no_trace (hnew : new initial rules options = .ok (e, notice))
    (hnumbers : ∀ rule ∈ rules.rules, rule.rank.isNaN = false)
    (hdeclared : ∃ rule ∈ rules.rules, rule.id = id)
    (hquiet : ∀ rule ∈ rules.rules, rule.id ≠ id → ∀ action ∈ rule.actions, ¬ action.AsksFor id) :
    (∃ notice', new initial (rules.without id) options = .ok (e.without id, notice')) ∧
      ∀ calls, e.IdlesThrough id calls →
        (e.without id).after calls = (e.after calls).without id ∧
          ((e.without id).after calls).state = (e.after calls).state ∧
          ((e.without id).after calls).history =
            (e.after calls).history.map (Snapshot.without · id) := by
  have hunasked := unasked_of_new hnew hdeclared hquiet
  refine ⟨new_without hnew hnumbers id, ?_⟩
  intro calls hidle
  have hsame := hunasked.without_after calls hidle
  refine ⟨hsame, ?_, ?_⟩
  · rw [hsame, state_without]
  · rw [hsame]
    rfl

section Passage

def zoneRule (id : String) (rank : Number) (zone : Value) : Rule :=
  { Stage.ranked id rank with actions := [Stage.zoning zone] }

/-- A rule that never fires. -/
def buoy (rank : Number) : Rule :=
  { Stage.ranked "buoy" rank with conditions := [.between 1 .equal 2] }

/-- Pilot and tower disagree about the zone, and whoever comes last is right; between them
stands the buoy. -/
def passage (rank : Number) : RuleSet :=
  ⟨[zoneRule "pilot" 1 "sea", buoy rank, zoneRule "tower" 2 "harbour"],
    { Policy.standard with strategy := .lastWriteWins }⟩

def passageEngine (rules : RuleSet) : Engine :=
  { rules := Rule.byPriority rules.rules
    maxChainDepth := standardChainDepth
    policy := rules.policy
    translator := .builtIn
    store := ⟨(default : World).stored, []⟩
    bus := (EventBus.new .tick).load ∅
    pending := [] }

theorem new_passage (rank : Number) :
    ∃ notice, new default (passage rank) .standard = .ok (passageEngine (passage rank), notice) :=
  ⟨_, rfl⟩

theorem quiet_passage (rank : Number) :
    ∀ rule ∈ (passage rank).rules, ∀ action ∈ rule.actions, action.kind ≠ .triggerRule := by
  simp [passage, zoneRule, buoy, Stage.ranked, Stage.zoning]

/-- The tick of the passage, where the order of its rules is known. -/
theorem runTick_passage {rules : RuleSet} {order : List Rule}
    (horder : Rule.byPriority rules.rules = order)
    (hquiet : ∀ rule ∈ order, ∀ action ∈ rule.actions, action.kind ≠ .triggerRule) :
    (passageEngine rules).runTick.1 = Tick.turns ⟨order, standardChainDepth⟩ order
      ((passageEngine rules).beginTick 0 default) := by
  rw [← Tick.drain_eq_turns hquiet, ← horder]
  rfl

theorem order_passage :
    Rule.byPriority (passage 0).rules =
      [zoneRule "tower" 2 "harbour", zoneRule "pilot" 1 "sea", buoy 0] := by
  refine Rule.byPriority_eq_of_perm (by decide +kernel) ?_ (by decide +kernel)
  exact (List.Perm.swap ..).trans ((List.Perm.swap ..).cons _)

theorem order_without_buoy (rank : Number) :
    Rule.byPriority ((passage rank).without "buoy").rules =
      [zoneRule "tower" 2 "harbour", zoneRule "pilot" 1 "sea"] := by
  have hothers : ((passage rank).without "buoy").rules =
      [zoneRule "pilot" 1 "sea", zoneRule "tower" 2 "harbour"] := rfl
  rw [hothers]
  exact Rule.byPriority_eq_of_perm (by decide +kernel) (List.Perm.swap ..) (by decide +kernel)

/-- By a priority that is no number the buoy keeps the tower behind the pilot. -/
theorem order_unranked :
    Rule.byPriority (passage .notANumber).rules = (passage .notANumber).rules := by
  have hbuoy : (buoy .notANumber).outranks (zoneRule "pilot" 1 "sea") = false := by decide +kernel
  have htower : (zoneRule "tower" 2 "harbour").outranks (buoy .notANumber) = false := by
    decide +kernel
  apply Rule.byPriority_eq_self_of_run (by decide +kernel)
  simp [passage, Arrangement.naturalRun, Arrangement.splitRun, hbuoy, htower]

theorem idles_buoy {rules : RuleSet} {order : List Rule}
    (horder : Rule.byPriority rules.rules = order)
    (hquiet : ∀ rule ∈ order, ∀ action ∈ rule.actions, action.kind ≠ .triggerRule)
    (hidle : ∀ d ∈ (Tick.turns ⟨order, standardChainDepth⟩ order
      ((passageEngine rules).beginTick 0 default)).drafts,
        d.rule.id = "buoy" → d.outcome.triggered = false) :
    (passageEngine rules).Idles "buoy" := by
  intro x hx hid
  obtain ⟨d, hd, rfl⟩ := List.mem_map.mp hx
  rw [runTick_passage horder hquiet] at hd
  exact hidle d hd hid

/-- Here the buoy leaves no trace. -/
theorem buoy_leaves_no_trace :
    ((passageEngine (passage 0)).without "buoy").after [.tick] =
      ((passageEngine (passage 0)).after [.tick]).without "buoy" := by
  obtain ⟨notice, hnew⟩ := new_passage 0
  have hquiet : ∀ rule ∈ (passage 0).rules, rule.id ≠ "buoy" →
      ∀ action ∈ rule.actions, ¬ action.AsksFor "buoy" :=
    fun rule hrule _ action haction hasks => quiet_passage 0 rule hrule action haction hasks.1
  obtain ⟨-, hsame⟩ := idle_rule_leaves_no_trace hnew (by decide +kernel)
    ⟨buoy 0, by simp [passage], rfl⟩ hquiet
  refine (hsame [.tick] ?_).1
  intro former later hcalls
  have hnone : former = [] := by
    cases former with
    | nil => rfl
    | cons => simp at hcalls
  subst hnone
  exact fun _ => idles_buoy order_passage (by decide) (by decide +kernel)

/-- With a priority that is no number the buoy does not fire either and nobody asks for it,
and yet the zone is another one without it. -/
theorem unranked_buoy_leaves_trace :
    ∃ e f notice notice' s s',
      new default (passage .notANumber) .standard = .ok (e, notice) ∧
      new default ((passage .notANumber).without "buoy") .standard = .ok (f, notice') ∧
      (∀ rule ∈ (passage .notANumber).rules, ∀ action ∈ rule.actions, ¬ action.AsksFor "buoy") ∧
      e.Idles "buoy" ∧ e.tick.snapshot = .ok s ∧ f.tick.snapshot = .ok s' ∧
      (s.state.field? (.environmentField "zone")).bind Value.text? = some "harbour" ∧
      (s'.state.field? (.environmentField "zone")).bind Value.text? = some "sea" := by
  obtain ⟨notice, hnew⟩ := new_passage .notANumber
  obtain ⟨notice', hnew'⟩ : ∃ notice',
      new default ((passage .notANumber).without "buoy") .standard =
        .ok (passageEngine ((passage .notANumber).without "buoy"), notice') := ⟨_, rfl⟩
  obtain ⟨s, hs⟩ := fresh_tick_commits hnew
  obtain ⟨s', hs'⟩ := fresh_tick_commits hnew'
  refine ⟨_, _, notice, notice', s, s', hnew, hnew',
    fun rule hrule action haction hasks => quiet_passage _ rule hrule action haction hasks.1,
    idles_buoy order_unranked (by decide) (by decide +kernel), hs, hs', ?_, ?_⟩
  · rw [(snapshot_of_tick hs).2, finalWorld, runTick_passage order_unranked (by decide)]
    decide +kernel
  · rw [(snapshot_of_tick hs').2, finalWorld, runTick_passage (order_without_buoy _) (by decide)]
    decide +kernel

end Passage

end Engine

end Harbormaster
