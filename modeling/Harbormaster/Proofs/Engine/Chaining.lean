import Harbormaster.Proofs.Engine.Clock
import Harbormaster.Proofs.Engine.Commits
import Harbormaster.Proofs.Tick.Links
import Harbormaster.Proofs.Tick.Overflow

/-!
What snapshots tell of the rules that ask for each other. The explanations of a committed
tick agree on who asked for whom, and if a chain got too deep the snapshot tells which one
and the explanation of one rule says so. A document keeps all of this as it is.
-/

namespace Harbormaster

namespace Explanation

def overflows (x : Explanation) : Bool := x.failures.any (·.isChainOverflow)

def visit (x : Explanation) : String × Value := (x.ruleId, x.triggeredBy)

structure AsksFor (p : Explanation) (target : String) : Prop where
  triggered : p.triggered = true
  listed : target ∈ p.triggeredRules
  requests : ∃ a ∈ p.actionsApplied, a.Requests target

end Explanation

namespace TickReport

/-- The overflow that a report tells of, with the explanations that bear it out: the rules
of its chain but the last had their turn, each asked for by the one before it, and after
the rule that carries the failure no rule was asked for or asked for another one. -/
structure Diagnoses (report : TickReport) (limit : Nat) (overflow : ChainOverflow) : Prop where
  distinct : overflow.chain.Nodup
  length : overflow.chain.length = limit + 2
  descends : Descends (report.explanations.map Explanation.visit) overflow.chain.dropLast
  last : overflow.chain.getLast? = some overflow.ruleId
  source : overflow.chain.dropLast.getLast? = some overflow.triggeredBy
  depth : overflow.depth = .ofNat (limit + 1) ∧ overflow.limit = .ofNat limit
  raised : ∃ former carrier later, report.explanations = former ++ carrier :: later ∧
    carrier.ruleId = overflow.triggeredBy ∧ carrier.overflows = true ∧
    ∀ x ∈ later, x.triggeredBy = .absent ∧ x.triggeredRules = []

/-- A report that tells of an overflow exactly where an explanation carries its failure,
and then in one explanation only. -/
structure TellsOverflow (report : TickReport) (limit : Nat) : Prop where
  carriers : report.explanations.countP Explanation.overflows =
    if report.chainOverflow.isSome then 1 else 0
  diagnoses : ∀ overflow, report.chainOverflow = some overflow → report.Diagnoses limit overflow

structure LinksAgree (report : TickReport) : Prop where
  asked : ∀ former c later, report.explanations = former ++ c :: later →
    c.triggeredBy = .absent ∨
      ∃ p ∈ former, c.triggeredBy = .text p.ruleId ∧ p.AsksFor c.ruleId
  answered : ∀ p ∈ report.explanations, ∀ target ∈ p.triggeredRules,
    (∃ c ∈ report.explanations, c.ruleId = target ∧ c.triggeredBy = .text p.ruleId) ∨
      Tick.ignoredNote target ∈ p.sideEffects ∨ report.chainOverflow ≠ none
  once : ∀ p ∈ report.explanations, p.triggeredRules.Nodup ∧ p.ruleId ∉ p.triggeredRules

end TickReport

namespace Draft

def told (d : Draft) : Explanation := d.build.stored

@[simp] theorem told_ruleId (d : Draft) : d.told.ruleId = d.rule.id := rfl

@[simp] theorem told_triggeredRules (d : Draft) : d.told.triggeredRules = d.triggeredRules := rfl

@[simp] theorem told_overflows (d : Draft) : d.told.overflows = d.overflows := rfl

theorem told_triggeredBy (d : Draft) (cause : Option String) (h : d.triggeredBy = .ofText? cause) :
    d.told.triggeredBy = .ofText? cause := by
  change d.triggeredBy.stored = .ofText? cause
  rw [h]
  cases cause with
  | none | some => rfl

theorem sideEffects_told (d : Draft) : d.sideEffects ⊆ d.told.sideEffects :=
  List.subset_append_left _ _

theorem AsksFor.told {p : Draft} {target : String} (h : p.AsksFor target) :
    p.told.AsksFor target := by
  obtain ⟨a, ha, hrequests⟩ := h.requests
  exact ⟨h.triggered, h.listed, a.stored, List.mem_map_of_mem ha,
    hrequests.success, hrequests.kind, hrequests.request⟩

end Draft

/-- A document keeps the chains of rules that asked for each other. -/
theorem Descends.told {drafts : List Draft} {chain : List String}
    (h : Descends (drafts.map fun d => (d.rule.id, d.triggeredBy)) chain) :
    Descends ((drafts.map Draft.told).map Explanation.visit) chain := by
  have hkept : ∀ (id : String) (cause : Option String),
      (id, Value.ofText? cause) ∈ drafts.map (fun d => (d.rule.id, d.triggeredBy)) →
      (id, Value.ofText? cause) ∈ (drafts.map Draft.told).map Explanation.visit := by
    intro id cause hmember
    obtain ⟨d, hd, heq⟩ := List.mem_map.mp hmember
    obtain ⟨hid, hcause⟩ := Prod.mk.inj heq
    refine List.mem_map.mpr ⟨d.told, List.mem_map_of_mem hd, ?_⟩
    rw [Explanation.visit, d.told_triggeredBy cause hcause, d.told_ruleId, hid]
  exact ⟨fun id hid => hkept id none (h.first id hid),
    h.links.imp fun former latter hlink => hkept latter (some former) hlink⟩

namespace Engine

variable {initial : World} {rules : RuleSet} {options : EngineOptions} {e : Engine}
  {notice : Notice} {s : Snapshot}

/-- What a snapshot holds of the drafts of its tick. -/
theorem explanations_of_tick (hs : e.tick.snapshot = .ok s) :
    s.record.explanations = e.runTick.1.drafts.map Draft.told ∧
      s.record.chainOverflow = e.runTick.1.overflow := by
  rw [(snapshot_of_tick hs).1]
  refine ⟨?_, rfl⟩
  simp [reportOf, TickReport.stored, Draft.told]

theorem diagnoses_of_tellsOf {limit : Nat} {overflow : ChainOverflow}
    (hs : e.tick.snapshot = .ok s) (h : Tick.TellsOf limit e.runTick.1 overflow) :
    s.record.Diagnoses limit overflow := by
  obtain ⟨hexplained, -⟩ := explanations_of_tick hs
  obtain ⟨former, carrier, later, hsplit, hcarrier, htells, -, hlater⟩ := h.raised
  refine ⟨h.distinct, h.length, ?_, h.ends.1, h.ends.2, h.depth, former.map Draft.told,
    carrier.told, later.map Draft.told, ?_, hcarrier, htells, ?_⟩
  · rw [hexplained]
    exact h.descends.told
  · rw [hexplained, hsplit, List.map_append, List.map_cons]
  · intro _ hmember
    obtain ⟨d, hd, rfl⟩ := List.mem_map.mp hmember
    obtain ⟨hcause, hnone⟩ := hlater d hd
    exact ⟨d.told_triggeredBy none hcause, hnone⟩

theorem tellsOverflow_of_tells {limit : Nat} (hs : e.tick.snapshot = .ok s)
    (h : Tick.Tells limit e.runTick.1 []) : s.record.TellsOverflow limit := by
  obtain ⟨hexplained, hoverflow⟩ := explanations_of_tick hs
  have hcount : s.record.explanations.countP Explanation.overflows =
      e.runTick.1.drafts.countP Draft.overflows := by
    rw [hexplained, List.countP_map]
    rfl
  have hquiet : ∀ drafts : List Draft, (∀ d ∈ drafts, d.overflows = false) →
      drafts.countP Draft.overflows = 0 := by
    intro drafts hnone
    apply List.countP_eq_zero.mpr
    intro d hd
    simp [hnone d hd]
  unfold Tick.Tells at h
  split at h
  · rename_i hopen
    constructor
    · rw [hcount, hoverflow, hopen, hquiet _ h]
      rfl
    · intro overflow hsome
      rw [hoverflow, hopen] at hsome
      cases hsome
  · rename_i overflow hhalted
    obtain ⟨htells, -⟩ := h
    constructor
    · obtain ⟨former, carrier, later, hsplit, -, hcarries, hothers, -⟩ := htells.raised
      have hformer := hquiet former fun d hd => hothers d (List.mem_append_left _ hd)
      have hlater := hquiet later fun d hd => hothers d (List.mem_append_right _ hd)
      rw [hcount, hoverflow, hhalted, hsplit, List.countP_append, List.countP_cons, hformer,
        hlater, hcarries]
      rfl
    · intro other hsome
      rw [hoverflow, hhalted] at hsome
      cases hsome
      exact diagnoses_of_tellsOf hs htells

theorem linksAgree_of_linked (hs : e.tick.snapshot = .ok s) (h : Tick.Linked e.runTick.1 []) :
    s.record.LinksAgree := by
  obtain ⟨hexplained, hoverflow⟩ := explanations_of_tick hs
  constructor
  · intro former c later hsplit
    rw [hexplained] at hsplit
    obtain ⟨former, others, hbefore, rfl, hothers⟩ := List.map_eq_append_iff.mp hsplit
    obtain ⟨c, later, rfl, rfl, -⟩ := List.map_eq_cons_iff.mp hothers
    rcases h.asked former c later hbefore with hnone | ⟨p, hp, hcause, hasks⟩
    · exact .inl (c.told_triggeredBy none hnone)
    · exact .inr ⟨p.told, List.mem_map_of_mem hp,
        c.told_triggeredBy (some p.rule.id) hcause, hasks.told⟩
  · intro _ hmember target htarget
    rw [hexplained] at hmember
    obtain ⟨p, hp, rfl⟩ := List.mem_map.mp hmember
    cases h.answered p hp target htarget with
    | @evaluated c hc hid hcause =>
      refine .inl ⟨c.told, ?_, hid, c.told_triggeredBy (some p.rule.id) hcause⟩
      rw [hexplained]
      exact List.mem_map_of_mem hc
    | ignored hnote => exact .inr (.inl (p.sideEffects_told hnote))
    | halted hhalted => exact .inr (.inr (hoverflow ▸ hhalted))
    | queued hentry => cases hentry
  · intro _ hmember
    rw [hexplained] at hmember
    obtain ⟨d, hd, rfl⟩ := List.mem_map.mp hmember
    exact h.once d hd

/-- The overflow of a chain is told exactly, whatever the rules ask for, the world holds
and the limit is: one explanation carries the failure where a snapshot tells of an
overflow, and none elsewhere. The limit is the one that the engine was set up with; no
chain gets too deep where it lets a chain run through all rules. -/
theorem overflow_is_told_exactly (hnew : new initial rules options = .ok (e, notice)) :
    chainDepth options.maxChainDepth = .ok e.maxChainDepth ∧
      (∃ start : Nat, initial.time.toInt? = some (start : Int) ∧
        ∀ calls, (e.after calls).Nameable → start + ticks calls < 2 ^ 53 →
          ∃ s, (e.after calls).tick.snapshot = .ok s) ∧
      ∀ calls s, (e.after calls).tick.snapshot = .ok s →
        s.record.TellsOverflow e.maxChainDepth ∧
          (rules.rules.length ≤ e.maxChainDepth + 1 → s.record.chainOverflow = none) := by
  obtain ⟨start, hbegins, -⟩ := onTime_of_new hnew
  refine ⟨(setup_of_new hnew).1, ⟨start, hbegins, fun calls => commits_of_new hnew hbegins⟩, ?_⟩
  intro calls s hs
  have hsetup := sameSetup_after e calls
  constructor
  · have htells : Tick.Tells (e.after calls).maxChainDepth (e.after calls).runTick.1 [] :=
      Tick.tells_drain (r := (e.after calls).tickRules) (ids_after hnew calls) rfl rfl
    rw [hsetup.maxChainDepth] at htells
    exact tellsOverflow_of_tells hs htells
  · intro hfew
    refine chainOverflow_eq_none ?_ hs
    rw [(perm_rules_after hnew calls).length_eq, hsetup.maxChainDepth]
    exact hfew

/-- The rules of the circle have their turns as declared. -/
theorem rules_circle (hnew : new initial circle options = .ok (e, notice)) :
    e.rules = circle.rules := by
  have hnumbers : ∀ rule ∈ circle.rules, rule.rank.isNaN = false := by decide +kernel
  have hsorted : circle.rules.Pairwise fun a b => b.outranks a = false := by decide +kernel
  rw [(of_new hnew).1, Rule.byPriority_eq_self hnumbers hsorted]

/-- Where no rule may be asked for, the first request for another rule is too deep. -/
theorem circle_tells_overflow :
    ∃ e notice s, new default circle { EngineOptions.standard with maxChainDepth := 0 } =
        .ok (e, notice) ∧ e.tick.snapshot = .ok s ∧ s.record.chainOverflow.isSome = true ∧
      s.record.explanations.countP Explanation.overflows = 1 := by
  obtain ⟨e, notice, hnew⟩ := @new_succeeds default circle
    { EngineOptions.standard with maxChainDepth := 0 } 0 rfl (by decide) rfl
  obtain ⟨hdepth, -, htold⟩ := overflow_is_told_exactly hnew
  obtain ⟨s, hs⟩ := fresh_tick_commits hnew
  have hlimit : e.maxChainDepth = 0 := (Except.ok.inj hdepth).symm
  have hhalted : e.runTick.1.halted = true := by
    unfold runTick tickRules
    dsimp only
    rw [rules_circle hnew, hlimit]
    have hfound : circle.rules.find? (·.id = "ping") = some (asking "ping" ["ping", "pong"]) := rfl
    -- the request of a rule for itself is ignored, and the next one halts chaining
    refine (congrArg Tick.halted (Tick.drain_cons_of_some hfound)).trans ?_
    exact Tick.halted_drain rfl
  have hsome : s.record.chainOverflow.isSome = true := by
    rw [(explanations_of_tick hs).2]
    exact hhalted
  refine ⟨e, notice, s, hnew, hs, hsome, ?_⟩
  rw [(htold [] s hs).1.carriers, if_pos hsome]

/-- The explanations of a tick agree on who asked for whom, in every tick of every engine. -/
theorem explanations_agree_on_links (hnew : new initial rules options = .ok (e, notice)) :
    (∃ start : Nat, initial.time.toInt? = some (start : Int) ∧
        ∀ calls, (e.after calls).Nameable → start + ticks calls < 2 ^ 53 →
          ∃ s, (e.after calls).tick.snapshot = .ok s) ∧
      ∀ calls s, (e.after calls).tick.snapshot = .ok s → s.record.LinksAgree := by
  obtain ⟨start, hbegins, -⟩ := onTime_of_new hnew
  refine ⟨⟨start, hbegins, fun calls => commits_of_new hnew hbegins⟩, ?_⟩
  intro calls s hs
  exact linksAgree_of_linked hs (Tick.linked_drain (ids_after hnew calls) rfl)

/-- The tug has its turn because the pilot asked for it, and the pilot's explanation says
so as well. -/
theorem pilot_asks_for_tug :
    ∃ s, relayEngine.tick.snapshot = .ok s ∧ ∃ p ∈ s.record.explanations,
      ∃ c ∈ s.record.explanations, c.ruleId = "tug" ∧ c.triggeredBy = .text p.ruleId ∧
        p.AsksFor "tug" := by
  obtain ⟨notice, hnew⟩ : ∃ notice, new default relay .standard = .ok (relayEngine, notice) :=
    ⟨_, rfl⟩
  obtain ⟨-, hagree⟩ := explanations_agree_on_links hnew
  obtain ⟨s, hs⟩ := fresh_tick_commits hnew
  obtain ⟨hexplained, hoverflow⟩ := explanations_of_tick hs
  have hlimit : relayEngine.rules.length ≤ relayEngine.maxChainDepth + 1 := by
    rw [rules_relayEngine]
    decide
  have hopen : relayEngine.runTick.1.halted = false := by
    have hnone := chainOverflow_eq_none hlimit hs
    rw [hoverflow] at hnone
    exact congrArg Option.isSome hnone
  have htug : ("tug", Value.text "pilot") ∈ relayEngine.runTick.1.visited := by
    rw [(follows_runTick hopen).visited, visits_relayEngine]
    exact List.mem_cons_of_mem _ List.mem_cons_self
  obtain ⟨d, hd, heq⟩ := List.mem_map.mp htug
  obtain ⟨hid, hcause⟩ := Prod.mk.inj heq
  obtain ⟨former, later, hsplit⟩ := List.append_of_mem (List.mem_map_of_mem (f := Draft.told) hd)
  rw [← hexplained] at hsplit
  have hkept : d.told.triggeredBy = .text "pilot" :=
    d.told_triggeredBy (some "pilot") hcause
  have hmember : former ++ d.told :: later ⊆ s.record.explanations := hsplit ▸ List.Subset.refl _
  rcases (hagree [] s hs).asked former d.told later hsplit with hnone | ⟨p, hp, hasked, hasks⟩
  · rw [hkept] at hnone
    cases hnone
  · rw [d.told_ruleId, hid] at hasks
    exact ⟨s, hs, p, hmember (List.mem_append_left _ hp), d.told, hmember (by simp), hid, hasked,
      hasks⟩

end Engine

end Harbormaster
