import Harbormaster.Proofs.Engine.Conflicts
import Harbormaster.Proofs.Tick.Accounting

/-!
What snapshots account for. Explanations list the actions of their rules one by one, and
the statistics of a tick are counted elsewhere, while it runs. Both are held against what
has been executed: nothing but the actions listed has changed the stage of the tick, and
counting the lists gives the statistics.
-/

namespace Harbormaster

structure Explanation.AccountsFor (x : Explanation) (rule : Rule) (executed : List Action) :
    Prop where
  ruleId : x.ruleId = rule.id
  /-- The actions are listed as documents hold them. -/
  listed : x.actionsApplied.map (·.action) = executed.map Action.stored
  inOrder : executed <+: rule.actions
  stops : Application.StopAtFailure x.actionsApplied
  nothing : x.actionsApplied = [] ↔ x.triggered = false ∨ rule.actions = []
  everything : x.triggered = true → (∀ a ∈ x.actionsApplied, a.success = true) →
    executed = rule.actions
  conditions : ∃ w, x.conditionsEvaluated = rule.conditions.map fun c => (c.evaluate w).stored
  failures : ∀ v ∈ x.conditionsEvaluated, v.failure ≠ none → x.triggered = false

theorem Application.StopAtFailure.stored {applications : List Application}
    (h : StopAtFailure applications) : StopAtFailure (applications.map Application.stored) := by
  have hkept : ∀ {as : List Application}, (∀ a ∈ as, a.success = true) →
      ∀ a ∈ as.map Application.stored, a.success = true := by
    intro as hall a ha
    obtain ⟨a, hmember, rfl⟩ := List.mem_map.mp ha
    exact hall a hmember
  rcases h with hall | ⟨former, last, rfl, hformer, hlast⟩
  · exact .inl (hkept hall)
  · refine .inr ⟨former.map Application.stored, last.stored, ?_, hkept hformer, hlast⟩
    rw [List.map_append, List.map_singleton]

theorem Draft.accountsFor {d : Draft} (h : d.performance.Proper) :
    d.build.stored.AccountsFor d.rule (d.applications.map (·.action)) := by
  have hnone : d.applications.map Application.stored = [] ↔
      d.outcome.triggered = false ∨ d.rule.actions = [] := by
    rw [List.map_eq_nil_iff]
    exact h.eq_nil_iff
  refine ⟨rfl, ?_, h.inOrder, h.stopAtFailure.stored, hnone, ?_, ?_, ?_⟩
  · have hlisted : d.build.stored.actionsApplied = d.applications.map Application.stored := rfl
    rw [hlisted, List.map_map, List.map_map]
    rfl
  · intro htriggered hsuccess
    refine (h.fired htriggered).all_of_success fun a ha => ?_
    exact hsuccess a.stored (List.mem_map_of_mem ha)
  · obtain ⟨w, houtcome⟩ := h.conditions
    have hevaluated : d.build.stored.conditionsEvaluated =
        d.performance.outcome.evaluations.map Evaluation.stored := rfl
    refine ⟨w, ?_⟩
    rw [hevaluated, houtcome]
    exact List.map_map
  · intro v hv hfailure
    obtain ⟨v, hmember, rfl⟩ := List.mem_map.mp hv
    exact h.not_triggered hmember hfailure

namespace Engine

/-- A snapshot whose explanations and statistics account for all that its tick has done. -/
structure AccountsFor (e : Engine) (rules : List Rule) (s : Snapshot) : Prop where
  /-- Every rule is explained, by the actions that have been executed; the tick has executed
  no others. -/
  turns : ∃ turns : List (Rule × List Action), (turns.map (·.1)).Perm rules ∧
    List.Forall₂ (fun x turn => x.AccountsFor turn.1 turn.2) s.record.explanations turns ∧
    e.runTick.1.stage = e.start.after e.tickRules.known
      (turns.flatMap fun turn => turn.2.map fun action => (turn.1, action))
  evaluated : s.record.stats.rulesEvaluated = .ofNat s.record.explanations.length
  triggered : s.record.stats.rulesTriggered = .ofNat (s.record.explanations.countP (·.triggered))
  applied : s.record.stats.actionsApplied =
    .ofNat ((s.record.explanations.flatMap (·.actionsApplied)).countP (·.success))
  failed : s.record.stats.actionsFailed =
    .ofNat ((s.record.explanations.flatMap (·.actionsApplied)).countP (!·.success))
  conflicts : s.record.stats.conflicts = .ofNat s.record.conflicts.length

variable {e : Engine} {s : Snapshot}

theorem accountsFor_of_tick {rules : List Rule} (hs : e.tick.snapshot = .ok s)
    (hids : (e.rules.map (·.id)).Nodup) (hrules : e.rules.Perm rules) :
    AccountsFor e rules s := by
  obtain ⟨hbalanced, hlisted⟩ : Tick.Balanced e.tickRules e.start e.runTick.1 ∧
      (e.runTick.1.performances.map (·.rule)).Perm e.rules :=
    Tick.balanced_drain (t := e.begun) hids rfl rfl rfl
  have hstats : s.record.stats = (reportOf e.runTick.1 e.runTick.2).stats := by
    rw [(snapshot_of_tick hs).1]
    rfl
  have hexplanations : s.record.explanations = e.runTick.1.drafts.map (·.build.stored) := by
    rw [(snapshot_of_tick hs).1]
    simp [reportOf, TickReport.stored, Function.comp_def]
  refine ⟨⟨e.runTick.1.performances.map fun p => (p.rule, p.applications.map (·.action)),
    ?_, ?_, ?_⟩, ?_, ?_, ?_, ?_, ?_⟩
  · rw [List.map_map]
    exact hlisted.trans hrules
  · rw [hexplanations, Tick.performances, List.map_map, List.forall₂_map_left_iff,
      List.forall₂_map_right_iff, List.forall₂_same]
    exact fun d hd => Draft.accountsFor (hbalanced.proper _ (List.mem_map_of_mem hd))
  · rw [hbalanced.stage, List.flatMap_map]
    simp only [List.map_map]
    rfl
  · rw [hstats, hexplanations]
    simp [reportOf]
  · rw [hstats, hexplanations, List.countP_map]
    simp only [reportOf, ← List.countP_eq_length_filter, List.countP_map]
    rfl
  · rw [hstats, applications_of_tick hs, List.countP_map, reportOf, hbalanced.applied]
    rfl
  · rw [hstats, applications_of_tick hs, List.countP_map, reportOf, hbalanced.failed]
    rfl
  · rw [hstats, conflicts_of_tick hs, List.length_map]
    rfl

variable {initial : World} {rules : RuleSet} {options : EngineOptions} {notice : Notice}

/-- In every tick of every run each rule is explained by its own actions, in order, up to the
first that fails: nothing after it has been executed, and where none fails nothing is left
out. A rule that does not fire lists none, and a failure among its conditions keeps it from
firing. The statistics count what the explanations and the records of conflicts list. -/
theorem explanations_account_for_ticks (hnew : new initial rules options = .ok (e, notice)) :
    (∃ start : Nat, initial.time.toInt? = some (start : Int) ∧
      ∀ calls, (e.after calls).Nameable → start + ticks calls < 2 ^ 53 →
        ∃ s, (e.after calls).tick.snapshot = .ok s) ∧
    ∀ calls s, (e.after calls).tick.snapshot = .ok s →
      AccountsFor (e.after calls) rules.rules s := by
  obtain ⟨start, hbegins, -, -⟩ := onTime_of_new hnew
  refine ⟨⟨start, hbegins, fun calls => commits_of_new hnew hbegins⟩, ?_⟩
  exact fun calls s hs =>
    accountsFor_of_tick hs (ids_after hnew calls) (perm_rules_after hnew calls)

def launching : RuleSet :=
  ⟨[{ Stage.ranked "pilot" 1 with
      actions := [Stage.zoning "sea", ⟨.set, .ofList [("target", "agents.ghost.speed"),
        ("value", 3)]⟩, Stage.zoning "harbour"] }], .standard⟩

def launchingEngine : Engine :=
  { rules := Rule.byPriority launching.rules
    maxChainDepth := standardChainDepth
    policy := launching.policy
    translator := .builtIn
    store := ⟨(default : World).stored, []⟩
    bus := (EventBus.new .tick).load ∅
    pending := [] }

theorem rules_launchingEngine : launchingEngine.rules = launching.rules := by
  have hnumbers : ∀ rule ∈ launching.rules, rule.rank.isNaN = false := by decide +kernel
  unfold launchingEngine
  rw [Rule.byPriority_eq_self hnumbers (List.pairwise_singleton _ _)]

theorem successes_launchingEngine :
    launchingEngine.runTick.1.applications.map (·.success) = [true, false] := by
  unfold runTick
  dsimp only
  rw [rules_launchingEngine, Tick.drain_eq_turns (by decide)]
  decide +kernel

/-- Its third action is neither listed nor counted. -/
theorem launch_is_accounted_for :
    ∃ e notice s, new default launching .standard = .ok (e, notice) ∧
      e.tick.snapshot = .ok s ∧ AccountsFor e launching.rules s ∧
      s.record.stats.actionsApplied = .ofNat 1 ∧ s.record.stats.actionsFailed = .ofNat 1 := by
  obtain ⟨notice, hnew⟩ : ∃ notice,
      new default launching .standard = .ok (launchingEngine, notice) := ⟨_, rfl⟩
  obtain ⟨-, haccounts⟩ := explanations_account_for_ticks hnew
  obtain ⟨s, hs⟩ := fresh_tick_commits hnew
  have haccount : AccountsFor launchingEngine launching.rules s := haccounts [] s hs
  have hlisted : (s.record.explanations.flatMap (·.actionsApplied)).map (·.success) =
      [true, false] := by
    rw [applications_of_tick hs, List.map_map, ← successes_launchingEngine]
    rfl
  have hcount : ∀ p : Bool → Bool,
      (s.record.explanations.flatMap (·.actionsApplied)).countP (fun a => p a.success) =
        [true, false].countP p := by
    intro p
    rw [← hlisted, List.countP_map]
    rfl
  refine ⟨launchingEngine, notice, s, hnew, hs, haccount, ?_, ?_⟩
  · rw [haccount.applied]
    exact congrArg Number.ofNat (hcount id)
  · rw [haccount.failed]
    exact congrArg Number.ofNat (hcount (!·))

end Engine

end Harbormaster
