import Harbormaster.Proofs.Conflict.Atomicity
import Harbormaster.Proofs.Rule.Order
import Harbormaster.Proofs.Tick.Coverage
import Harbormaster.Proofs.Tick.Independence

/-!
Engines whose rules keep out of each other's way. In which order such rules have their
turns, and so which priorities they were given, makes no difference to what a tick commits
but for the order in which the rules are told of. Rules that ask for others or spawn events
are left out, since the order shows in chains and in the ids of events.
-/

namespace Harbormaster

/-- The ids of the rules that fired, in the order of their turns. -/
def TickReport.triggered (report : TickReport) : List String :=
  (report.explanations.filter (·.triggered)).map (·.ruleId)

structure Snapshot.Rearranged (s s' : Snapshot) : Prop where
  tick : s'.tick = s.tick
  cells : s'.state.SameCells s.state
  events : s'.state.events = s.state.events
  timeStep : s'.state.timeStep = s.state.timeStep
  triggered : s'.record.triggered.Perm s.record.triggered

namespace Engine

variable {e : Engine} {order : List Rule} {initial : World} {rules rules' : RuleSet}
  {options : EngineOptions} {notice : Notice}

/-- Where no rule asks for another one, a tick is the turns of its rules. -/
theorem runTick_eq_turns (hkinds : Rule.KeepToCells e.rules) :
    e.runTick.1 = Tick.turns e.tickRules e.rules
      (e.beginTick e.state.stored.time e.runTick.2.world) := by
  refine Tick.drain_eq_turns fun rule hrule action haction hasks => ?_
  have hkind := hkinds.kinds hrule action haction
  rw [hasks] at hkind
  cases hkind

/-- In a tick every one of independent rules does what it does alone. -/
theorem leadsTo_runTick (hindependent : Rule.Independent e.rules)
    (hkinds : Rule.KeepToCells e.rules) :
    e.start.LeadsTo e.rules (Rule.runAlone e.tickRules.known e.rules e.start.world)
      e.runTick.1.stage := by
  rw [runTick_eq_turns hkinds]
  exact Tick.leadsTo_turns hindependent hkinds (List.Subset.refl _) _
    (Ledger.divided_beginTick e.rules _ _)

/-- Independent rules fire as the conditions tell that hold when the tick begins. -/
theorem triggered_runTick (hindependent : Rule.Independent e.rules)
    (hkinds : Rule.KeepToCells e.rules) (hdistinct : (e.rules.map (·.id)).Nodup) :
    (reportOf e.runTick.1 e.runTick.2).stored.triggered =
      (e.rules.filter (·.fires e.start.world)).map (·.id) := by
  have houtcomes : e.runTick.1.outcomes =
      e.rules.map fun rule => (rule.id, rule.fires e.start.world) := by
    rw [runTick_eq_turns hkinds]
    exact Tick.outcomes_turns hindependent hkinds (List.Subset.refl _) hdistinct _
      (Ledger.divided_beginTick e.rules _ _)
  have htold : (reportOf e.runTick.1 e.runTick.2).stored.triggered =
      (e.runTick.1.outcomes.filter (·.2)).map (·.1) := by
    simp [TickReport.triggered, reportOf, TickReport.stored, Explanation.stored, Draft.build,
      Tick.outcomes, List.filter_map, Function.comp_def]
  rw [htold, houtcomes, List.filter_map, List.map_map]
  rfl

/-- Ticks that leave worlds in agreement commit worlds in agreement. -/
theorem agrees_finalWorld {t t' : Tick} (hbus : t'.stage.bus = t.stage.bus)
    (h : World.Agrees (fun _ => True) t'.stage.world t.stage.world) :
    World.Agrees (fun _ => True) (finalWorld t') (finalWorld t) := by
  refine ⟨congrArg EventBus.listed hbus, fun path _ => ?_⟩
  have hpart : ∀ t : Tick, (finalWorld t).part path = t.stage.world.part path := by
    intro t
    cases path with
    | agentField | environmentField | metric | event => rfl
  rw [hpart, hpart]
  exact h.parts path trivial

/-- An engine with its independent rules in another order and with other priorities commits
the same tick, and neither tick has a conflict. -/
theorem snapshot_rearranged {f : Engine} (hf : f = { e with rules := order })
    (hrearranged : Rule.Rearranged e.rules order) (hindependent : Rule.Independent e.rules)
    (hkinds : Rule.KeepToCells e.rules) (hdistinct : (e.rules.map (·.id)).Nodup) {s : Snapshot}
    (h : e.tick.snapshot = .ok s) :
    ∃ s', f.tick.snapshot = .ok s' ∧ s.Rearranged s' ∧
      s.record.conflicts = [] ∧ s'.record.conflicts = [] := by
  have hindependent' : Rule.Independent f.rules := hf ▸ hrearranged.independent hindependent
  have hkinds' : Rule.KeepToCells f.rules := hf ▸ hrearranged.keepToCells hkinds
  have hdistinct' : (f.rules.map (·.id)).Nodup := hf ▸ hrearranged.ids.nodup_iff.mpr hdistinct
  have hstart : f.start = e.start := hf ▸ rfl
  have hnumber : f.runTick.1.number = e.runTick.1.number := by
    have hlast : ∀ e : Engine, e.runTick.1.number = e.state.stored.time :=
      fun e => Tick.drain_number _ _
    rw [hlast, hlast, hf]
    rfl
  have hnext : f.store.nextTick = e.store.nextTick := hf ▸ rfl
  have hnameable : e.Nameable := nameable_of_tick h
  have hnameable' : f.Nameable := hf ▸ hnameable
  have hend := leadsTo_runTick hindependent hkinds
  have hend' := leadsTo_runTick hindependent' hkinds'
  rw [hstart] at hend'
  have hworld : World.Agrees (fun _ => True) (finalWorld f.runTick.1) (finalWorld e.runTick.1) := by
    refine agrees_finalWorld (hend'.bus.trans hend.bus.symm) ?_
    rw [hend'.world, hend.world]
    have horder : f.rules = order := hf ▸ rfl
    rw [horder]
    exact hrearranged.agrees hindependent hdistinct hkinds _
  have htriggered : (reportOf f.runTick.1 f.runTick.2).stored.triggered.Perm
      (reportOf e.runTick.1 e.runTick.2).stored.triggered := by
    rw [triggered_runTick hindependent' hkinds' hdistinct',
      triggered_runTick hindependent hkinds hdistinct, hstart]
    exact hf ▸ hrearranged.fired e.start.world
  rw [snapshot_eq hnameable] at h
  rw [snapshot_eq hnameable']
  rw [hnumber, hnext]
  split at h
  · rename_i hcommits
    cases h
    rw [if_pos hcommits]
    refine ⟨_, rfl, ⟨rfl, hworld.sameCells, ?_, ?_, htriggered⟩, ?_, ?_⟩
    · exact congrArg (·.map Event.stored) hworld.events
    · simp [World.stored, finalWorld, hnumber]
    · simp [TickReport.stored, reportOf, hend.records]
      rfl
    · simp [TickReport.stored, reportOf, hend'.records]
      rfl
  · cases h

theorem after_submits_of_rules (e : Engine) (order : List Rule) (inputs : List Input) :
    ({ e with rules := order } : Engine).after (inputs.map .submit) =
      { e.after (inputs.map .submit) with rules := order } := by
  induction inputs generalizing e with
  | nil => rfl
  | cons input rest ih => exact ih (e.submit input)

/-- Independent rules commute. Where no rule reads or writes a path that another one writes, and
none asks for rules, spawns events or alters what records fall back on, the rules can be declared
in any order and be given any priorities: an engine can be set up with them as well, and over the
same world and inputs its tick commits the same cells and fires the same rules, without
conflicts. So does every tick of a run that the rules are rearranged for. Conditions and actions
may fail. -/
theorem independent_rules_commute (hnew : new initial rules options = .ok (e, notice))
    (hkinds : Rule.KeepToCells rules.rules) (hindependent : Rule.Independent rules.rules)
    (hrearranged : Rule.Rearranged rules.rules rules'.rules)
    (hpolicy : rules'.policy = rules.policy) :
    ∃ f notice', new initial rules' options = .ok (f, notice') ∧
      (∀ inputs : List Input, (∀ input ∈ inputs, input.stored.isNameable = true) →
        ∃ s s', (e.after (inputs.map .submit)).tick.snapshot = .ok s ∧
        (f.after (inputs.map .submit)).tick.snapshot = .ok s' ∧ s.Rearranged s' ∧
        s.record.conflicts = [] ∧ s'.record.conflicts = []) ∧
      ∀ calls s, (e.after calls).tick.snapshot = .ok s →
        ∃ s', ({ e.after calls with rules := f.rules } : Engine).tick.snapshot = .ok s' ∧
          s.Rearranged s' ∧ s.record.conflicts = [] ∧ s'.record.conflicts = [] := by
  obtain ⟨-, hdistinct, -, -, -⟩ := of_new hnew
  obtain ⟨notice', hnew'⟩ := new_of_rules hnew (hrearranged.ids.nodup_iff.mpr hdistinct) hpolicy
  have hticks : ∀ calls s, (e.after calls).tick.snapshot = .ok s →
      ∃ s', ({ e.after calls with rules := Rule.byPriority rules'.rules } : Engine).tick.snapshot =
          .ok s' ∧ s.Rearranged s' ∧ s.record.conflicts = [] ∧ s'.record.conflicts = [] := by
    intro calls s hs
    -- putting the rules in order is one more rearrangement
    have hordered : Rule.Rearranged rules.rules (e.after calls).rules :=
      .of_perm (perm_rules_after hnew calls)
    have hreordered : Rule.Rearranged (e.after calls).rules (Rule.byPriority rules'.rules) :=
      hordered.symm.trans (hrearranged.trans (.of_perm (Rule.perm_byPriority rules'.rules)))
    exact snapshot_rearranged rfl hreordered (hordered.independent hindependent)
      (hordered.keepToCells hkinds) (hordered.ids.nodup_iff.mpr hdistinct) hs
  refine ⟨_, notice', hnew', fun inputs hinputs => ?_, hticks⟩
  obtain ⟨s, hs⟩ := first_tick_commits hnew hinputs
  obtain ⟨s', hs', hsame⟩ := hticks _ s hs
  refine ⟨s, s', hs, ?_, hsame⟩
  rw [after_submits_of_rules]
  exact hs'

section Fairway

def dredger (rank : Number) : Rule :=
  { Stage.ranked "dredger" rank with
    actions :=
      [⟨.set, .ofList [("target", "environment.works"), ("value", "begun")]⟩,
        ⟨.add, .ofList [("target", "environment.depth"), ("value", 1)]⟩] }

def zonePilot (rank : Number) : Rule :=
  { Stage.ranked "pilot" rank with actions := [Stage.zoning "sea"] }

def fairway : RuleSet := ⟨[zonePilot 2, dredger 1], .standard⟩

def turnedFairway : RuleSet := ⟨[dredger .notANumber, zonePilot 1], .standard⟩

/-- Pilot and dredger can have their turns in either order. -/
theorem fairway_turns : ∃ e f notice notice' s s',
    new default fairway .standard = .ok (e, notice) ∧
      new default turnedFairway .standard = .ok (f, notice') ∧
      e.tick.snapshot = .ok s ∧ f.tick.snapshot = .ok s' ∧ s.Rearranged s' ∧
      s.record.conflicts = [] ∧ s'.record.conflicts = [] := by
  obtain ⟨e, notice, hnew⟩ : ∃ e notice, new default fairway .standard = .ok (e, notice) :=
    ⟨_, _, rfl⟩
  have hrearranged : Rule.Rearranged fairway.rules turnedFairway.rules := by
    simp only [Rule.Rearranged, fairway, turnedFairway, List.map_cons, Rule.unranked, dredger,
      zonePilot, Stage.ranked]
    exact List.Perm.swap ..
  obtain ⟨f, notice', hnew', hticks, -⟩ :=
    independent_rules_commute hnew (by decide) (by decide +kernel) hrearranged rfl
  obtain ⟨s, s', hs, hs', hsame⟩ := hticks [] fun _ hnone => nomatch hnone
  exact ⟨e, f, notice, notice', s, s', hnew, hnew', hs, hs', hsame⟩

end Fairway

section Lending

/-- A rule that gives the tug a list to fall back on. -/
def lender (rank : Number) : Rule := Stage.towing "lender" rank "__proto__" (.list [1, 2])

/-- A rule that fires if the tug has a length, which nobody writes. -/
def borrower (rank : Number) : Rule :=
  { Stage.ranked "borrower" rank with
    conditions := [.between "agents.tug.length" .greater 1]
    actions := [Stage.zoning "sea"] }

def lendingEngine (rules : List Rule) : Engine :=
  { rules := Rule.byPriority rules
    maxChainDepth := standardChainDepth
    policy := .standard
    translator := .builtIn
    store := ⟨Stage.tugged.stored, []⟩
    bus := (EventBus.new .tick).load ∅
    pending := [] }

/-- Which rules fire in the tick of such an engine, if the rules are declared in their order. -/
theorem triggered_lendingEngine (rules : List Rule)
    (hnew : ∃ notice, new Stage.tugged ⟨rules, .standard⟩ .standard =
      .ok (lendingEngine rules, notice))
    (hnumbers : ∀ rule ∈ rules, rule.rank.isNaN = false)
    (hsorted : rules.Pairwise fun a b => b.outranks a = false)
    (hquiet : ∀ rule ∈ rules, ∀ action ∈ rule.actions, action.kind ≠ .triggerRule) :
    ∃ s, (lendingEngine rules).tick.snapshot = .ok s ∧ s.record.triggered =
      ((Tick.turns ⟨rules, standardChainDepth⟩ rules ((lendingEngine []).beginTick 0
        Stage.tugged.stored.stored)).outcomes.filter (·.2)).map (·.1) := by
  obtain ⟨notice, hnew⟩ := hnew
  obtain ⟨s, hs⟩ := fresh_tick_commits hnew
  have hrules : (lendingEngine rules).rules = rules := Rule.byPriority_eq_self hnumbers hsorted
  have hrun : (lendingEngine rules).runTick.1 = Tick.turns ⟨rules, standardChainDepth⟩ rules
      ((lendingEngine []).beginTick 0 Stage.tugged.stored.stored) := by
    unfold runTick
    dsimp only
    rw [hrules, Tick.drain_eq_turns hquiet, tickRules, hrules]
    rfl
  refine ⟨s, hs, ?_⟩
  rw [(snapshot_of_tick (e := lendingEngine rules) hs).1, ← hrun]
  simp [TickReport.triggered, reportOf, TickReport.stored, Explanation.stored, Draft.build,
    Tick.outcomes, List.filter_map, Function.comp_def]

/-- The borrower fires after the lender only, although it reads and writes other paths. -/
theorem borrower_needs_lender :
    Rule.Independent [lender 2, borrower 1] ∧
      Rule.Rearranged [lender 2, borrower 1] [borrower 2, lender 1] ∧
      (∃ e notice s, new Stage.tugged ⟨[lender 2, borrower 1], .standard⟩ .standard =
          .ok (e, notice) ∧ e.tick.snapshot = .ok s ∧
        s.record.triggered = ["lender", "borrower"]) ∧
      ∃ f notice s, new Stage.tugged ⟨[borrower 2, lender 1], .standard⟩ .standard =
          .ok (f, notice) ∧ f.tick.snapshot = .ok s ∧ s.record.triggered = ["lender"] := by
  refine ⟨by decide +kernel, ?_, ?_, ?_⟩
  · simp only [Rule.Rearranged, List.map_cons, Rule.unranked, lender, borrower, Stage.towing,
      Stage.ranked]
    exact List.Perm.swap ..
  · obtain ⟨s, hs, htriggered⟩ := triggered_lendingEngine [lender 2, borrower 1] ⟨_, rfl⟩
      (by decide +kernel) (by decide +kernel) (by decide)
    exact ⟨_, _, s, rfl, hs, htriggered.trans (by decide +kernel)⟩
  · obtain ⟨s, hs, htriggered⟩ := triggered_lendingEngine [borrower 2, lender 1] ⟨_, rfl⟩
      (by decide +kernel) (by decide +kernel) (by decide)
    exact ⟨_, _, s, rfl, hs, htriggered.trans (by decide +kernel)⟩

end Lending

end Engine

end Harbormaster
