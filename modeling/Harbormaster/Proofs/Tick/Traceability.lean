import Harbormaster.Proofs.Action.Deeds
import Harbormaster.Proofs.Conflict.Atomicity
import Harbormaster.Proofs.Conflict.Values
import Harbormaster.Proofs.Explanation.Replay
import Harbormaster.Proofs.Path.Spelling
import Harbormaster.Proofs.Tick.Coverage
import Harbormaster.Proofs.Tick.Steps

/-!
A tick can be traced: the changes that its explanations record, performed one by
one on the world that the rules began with, lead to the cells that the tick
commits. During the tick a second world is led by the recorded changes alone; it
reflects the world on the stage after every action, whether the action was
applied, failed or overflowed the chain. Events play no part in it.
-/

namespace Harbormaster

/-- Whether an action that wrote has written an ordinary cell, and left something in it that a
document keeps, or nothing. -/
def Application.LeavesCell (a : Application) : Prop :=
  a.success = true → a.action.kind.isMutating = true →
    Path.Ordinary a.action.target.plainText ∧ (a.after = .absent ∨ a.after.isCell = true)

namespace Stage

variable {s : Stage} {known : String → Bool} {rule : Rule} {action : Action} {u : World}

structure Sound (s : Stage) : Prop where
  world : s.world.Sound
  ledger : s.ledger.Sound

/-- What a record of the stage has to keep up: a world that reflects the one on the
stage, where all is sound. -/
structure Traced (u : World) (s : Stage) : Prop where
  reflects : u.Reflects s.world
  sound : s.Sound

/-- The change that a write is recorded with. -/
theorem changes_written {action : Action} {path : Path} (before : Value) (outcome : WriteOutcome)
    (message : String) (hkind : action.kind.isMutating = true)
    (hpath : Path.parse? action.target.plainText = some path) :
    Application.changes [.written action before outcome message] =
      [(⟨action.kind, action.target, before, outcome.value.marked⟩ : Change).stored] := by
  have hcounts := Value.counts_of_parse? hpath
  obtain ⟨_, hwritten⟩ := Application.written_eq action before outcome message
  simp [Application.changes, hwritten, Application.plain, Draft.changeOf, hcounts, hkind]

/-- The change that a write is recorded with leads on to the world after it. -/
theorem Traced.of_wrote {request : WriteRequest} {before : Value} {message : String} {s' : Stage}
    {result : Except Failure Application} {a : Application} (h : Traced u s)
    (hwrote : Wrote s request before message s' result) (hresult : result = .ok a)
    (hpath : request.path = request.action.target.plainText)
    (hkind : request.action.kind.isMutating = true)
    (hbefore : s.world.current request.path = .ok before)
    (hvalue : request.value ≠ .absent) (hcell : a.LeavesCell) :
    ∃ u', Leads u (Application.changes [a]) u' ∧ Traced u' s' := by
  cases hwrote with
  | @intro ledger world outcome hend =>
    cases outcome with
    | error => cases hresult
    | ok outcome =>
      have hafter : a = .written request.action before outcome message := by
        cases hresult
        rfl
      subst hafter
      obtain ⟨hordinary, hleft⟩ : Path.Ordinary request.path ∧
          (outcome.value.marked = .absent ∨ outcome.value.marked.isCell = true) := by
        obtain ⟨_, hwritten⟩ := Application.written_eq request.action before outcome message
        rw [hwritten] at hcell
        rw [hpath]
        exact hcell rfl hkind
      have hsome := Ledger.ne_absent_of_end h.sound.ledger hvalue hend
      have hvalue := Value.isCell_of_marked hsome hleft
      have hstep : ∃ u', u.settle request.path outcome.value.marked.stored = .ok u' ∧
          u'.Reflects world ∧ world.Sound := by
        rcases Ledger.world_of_end hend with hwrite | ⟨hmissing, hunset⟩
        · exact h.reflects.write h.sound.world hordinary.sparesBase hvalue hwrite
        · rw [hmissing]
          exact h.reflects.unset h.sound.world hordinary.sparesBase hunset
      obtain ⟨u', hsettle, hreflects, hsound⟩ := hstep
      have hledger : ledger.Sound := by
        refine h.sound.ledger.of_end h.sound.world (fun _ _ => hordinary) ?_ hend
        intro other hother
        cases hother
        exact hvalue
      refine ⟨u', ?_, ⟨hreflects, ⟨hsound, hledger⟩⟩⟩
      -- the snapshot stores the target as well, and it still spells the same path
      obtain ⟨path, hparse⟩ := World.parse?_of_current hbefore
      rw [hpath] at hparse
      rw [changes_written before outcome message hkind hparse]
      have htext : request.action.target.stored.plainText = request.path := by
        rw [Value.plainText_stored hparse, hpath]
      refine ⟨.step ?_ ?_ (.done u'), ?_⟩
      · change u.current request.action.target.stored.plainText = .ok before.stored
        rw [htext]
        exact h.reflects.current h.sound.world hordinary hbefore
      · change u.settle request.action.target.stored.plainText outcome.value.marked.stored = .ok u'
        rw [htext]
        exact hsettle
      · intro c hc
        rw [List.mem_singleton.mp hc]
        change Path.SparesBase request.action.target.stored.plainText
        rw [htext]
        exact hordinary.sparesBase

/-- An action that fails leaves nothing that has to be kept up with. -/
theorem Traced.of_failed {failure : Failure} (h : Traced u s)
    (hfailed : (s.execute known rule action).result = .error failure) :
    Traced u (s.execute known rule action).stage := by
  have hresidue := residue_of_failed hfailed
  generalize (s.execute known rule action).stage = s' at hresidue ⊢
  cases hresidue with
  | nothing => exact h
  | listed _ hentry =>
    obtain ⟨hbase, hvalue⟩ := h.sound.ledger _ _ hentry
    exact ⟨h.reflects, ⟨h.sound.world, h.sound.ledger.put hbase hvalue⟩⟩

/-- The changes recorded with an action that was applied lead on to its world; an
action that is no write is recorded with none. -/
theorem Traced.of_applied {a : Application} (h : Traced u s)
    (happlied : (s.execute known rule action).result = .ok a) (hcells : a.LeavesCell) :
    ∃ u', Leads u (Application.changes [a]) u' ∧
      Traced u' (s.execute known rule action).stage := by
  unfold execute at happlied ⊢
  cases hdeed : Deed.ofAction known rule action s.world with
  | error failure =>
    rw [hdeed] at happlied
    cases happlied
  | ok deed =>
    simp only [hdeed] at happlied ⊢
    cases Deed.of_ofAction hdeed with
    | @write value range before message hkind hbefore hvalue =>
      have hwrote := wrote_performWrite s rule action action.target.plainText value range before
        message
      simp only [perform] at happlied ⊢
      generalize (s.performWrite rule action action.target.plainText value range before
        message).stage = s' at hwrote ⊢
      generalize (s.performWrite rule action action.target.plainText value range before
        message).result = result at hwrote happlied
      exact h.of_wrote hwrote happlied rfl hkind hbefore hvalue hcells
    | recommend hkind | trigger hkind | log hkind =>
      have haction : a.action = action := by
        rw [← Except.ok.inj happlied]
        rfl
      rw [Application.changes_of_not_mutating (haction ▸ hkind)]
      exact ⟨u, .nil u, h⟩
    | spawn hkind =>
      have haction : a.action = action := by
        rw [← Except.ok.inj happlied]
        rfl
      rw [Application.changes_of_not_mutating (haction ▸ hkind)]
      refine ⟨u, .nil u, ⟨?_, ⟨?_, h.sound.ledger⟩⟩⟩
      · exact h.reflects.congr rfl rfl rfl
      · exact h.sound.world.congr rfl rfl rfl

/-- Whatever an action is recorded as, its changes lead on to the stage after it. -/
theorem Traced.execute {a : Application} (h : Traced u s)
    (hrecord : Tick.RecordOf (s.execute known rule action).result a)
    (hcells : a.LeavesCell) :
    ∃ u', Leads u (Application.changes [a]) u' ∧
      Traced u' (s.execute known rule action).stage := by
  cases hrecord with
  | failed hfailed hrequest =>
    have hnone : Application.changes [a] = [] := by
      simp [Application.changes, hfailed]
    rw [hnone]
    refine ⟨u, .nil u, ?_⟩
    -- recorded as failed is also a trigger that overflowed the chain
    cases hresult : (s.execute known rule action).result with
    | error failure => exact h.of_failed hresult
    | ok a₀ =>
      rw [stage_of_request hresult (hrequest a₀ hresult)]
      exact h
  | @applied a₀ hresult triggerRequest message =>
    have hcells₀ : a₀.LeavesCell := hcells
    rw [Application.changes_congr]
    exact h.of_applied hresult hcells₀

end Stage

namespace Tick

variable {r : TickRules} {rules waiting : List Rule} {source : QueueEntry} {rule : Rule}
  {action : Action} {start : World} {t t' : Tick}

/-- The changes recorded so far lead from a world to one that reflects the stage,
provided that only ordinary cells have been written, with what documents keep. -/
def Traced (start : World) (t : Tick) : Prop :=
  (∀ a ∈ t.applications, a.LeavesCell) →
    ∃ u, Leads start (Application.changes t.applications) u ∧ Stage.Traced u t.stage

theorem Traced.congr (h : Traced start t) (happlications : t'.applications = t.applications)
    (hstage : t'.stage = t.stage) : Traced start t' := by
  unfold Traced
  rw [happlications, hstage]
  exact h

/-- One action records one application, and what it records leads on. -/
theorem Traced.act {scheduled scheduled' : List QueueEntry} {ids : List String}
    (h : Traced start t) (hlast : t.evaluated = ids ++ [rule.id]) (hnew : rule.id ∉ ids)
    (hact : Act r waiting source rule action t scheduled t' scheduled') : Traced start t' := by
  obtain ⟨a, happlications, hrecord⟩ := hact.applications hlast hnew
  intro hcells
  rw [happlications] at hcells ⊢
  obtain ⟨u, hleads, htraced⟩ := h fun b hb => hcells b (List.mem_append_left _ hb)
  obtain ⟨u', hleads', htraced'⟩ := htraced.execute hrecord (hcells a (by simp))
  refine ⟨u', ?_, ?_⟩
  · rw [Application.changes_append]
    exact hleads.append hleads'
  · rw [hact.stage]
    exact htraced'

theorem Traced.turn (h : Traced start t) (hnew : rule.id ∉ t.evaluated) :
    Traced start (evaluateRule r waiting source rule t).1 := by
  have hturn : (evaluateRule r waiting source rule t).1.evaluated = t.evaluated ++ [rule.id] ∧
      Traced start (evaluateRule r waiting source rule t).1 := by
    refine evaluateRule_preserves (P := fun t' _ =>
      t'.evaluated = t.evaluated ++ [rule.id] ∧ Traced start t') ?_ ?_
    · intro draft notices hrule hnothing
      constructor
      · simp [evaluated, note, hrule]
      · refine h.congr ?_ rfl
        simp [applications, note, hnothing]
    · rintro action _ t₁ _ t₂ _ ⟨hlast, htraced⟩ hact
      exact ⟨hact.evaluated.trans hlast, htraced.act hlast hnew hact⟩
  exact hturn.2

/-- Nothing that happens while the queue is worked off goes unrecorded. -/
theorem Traced.drain {queue : List QueueEntry} (hdistinct : (rules.map (·.id)).Nodup)
    (haccounts : Accounts rules waiting t) (h : Traced start t) :
    Traced start (Tick.drain r waiting queue t) := by
  have hend : ∃ left, Accounts rules left (Tick.drain r waiting queue t) ∧
      Traced start (Tick.drain r waiting queue t) := by
    refine drain_preserves (P := fun waiting _ t => Accounts rules waiting t ∧ Traced start t)
      ?_ ?_ ⟨haccounts, h⟩
    · rintro waiting entry _ t _ ⟨haccounts, htraced⟩
      obtain ⟨g, hg, heq⟩ := t.noteIgnored_annotates entry
      constructor
      · unfold Accounts
        rw [evaluated_noteIgnored]
        exact haccounts
      · refine htraced.congr (applications_of_annotates hg ?_) ?_
        · rw [heq]
        · rw [heq]
    · rintro waiting entry _ t rule hrule ⟨haccounts, htraced⟩
      have hwaits := List.mem_of_find?_eq_some hrule
      exact ⟨haccounts.turn hrule, htraced.turn (haccounts.not_evaluated hdistinct hwaits)⟩
  obtain ⟨_, _, htraced⟩ := hend
  exact htraced

end Tick

namespace Engine

variable {initial : World} {rules : RuleSet} {options : EngineOptions} {e : Engine}
  {notice : Notice} {calls : List Call} {s : Snapshot}

/-- A snapshot records the changes that its applications made, in order. -/
theorem changes_of_tick {e : Engine} {s : Snapshot} (hs : e.tick.snapshot = .ok s) :
    s.record.explanations.flatMap (·.effect.changes) =
      Application.changes e.runTick.1.applications := by
  rw [(snapshot_of_tick hs).1]
  simp only [reportOf, TickReport.stored, Tick.applications]
  induction e.runTick.1.drafts with
  | nil => rfl
  | cons d rest ih =>
    rw [List.flatMap_cons, Application.changes_append, ← ih]
    rfl

theorem traced_runTick (hnew : new initial rules options = .ok (e, notice))
    (hsolid : (e.after calls).runTick.2.world.Solid) :
    Tick.Traced (e.after calls).runTick.2.world (e.after calls).runTick.1 := by
  refine Tick.Traced.drain (ids_after hnew calls) ?_ ?_
  · exact .refl _
  · intro _
    refine ⟨_, .nil _, ⟨?_, ⟨?_, ?_⟩⟩⟩
    · exact hsolid.reflects.congr rfl rfl rfl
    · exact hsolid.sound.congr rfl rfl rfl
    · intro path entry hentry
      cases hentry

/-- Performed in order on the world with the inputs applied, the changes that a
snapshot explains lead to the cells that it commits, each of them from the value
that its target holds by then. So no cell changes in a tick that no explanation
names. That world has to be solid, and what is written has to be something that a document
keeps, in ordinary cells; of rules, strategies, chains and failures nothing is asked. -/
theorem explained_changes_lead_to_state (hnew : new initial rules options = .ok (e, notice))
    (hs : (e.after calls).tick.snapshot = .ok s)
    (hsolid : (e.after calls).runTick.2.world.Solid)
    (hcells : ∀ a ∈ (e.after calls).runTick.1.applications, a.LeavesCell) :
    (∃ final, Replays (e.after calls).runTick.2.world
        (s.record.explanations.flatMap (·.effect.changes)) final ∧ final.SameCells s.state) ∧
      ∀ path, s.state.peekAt path ≠ (e.after calls).runTick.2.world.peekAt path →
        ∃ x ∈ s.record.explanations, ∃ c ∈ x.effect.changes,
          Path.parse? c.target.plainText = some path := by
  obtain ⟨final, hleads, htraced⟩ := traced_runTick hnew hsolid hcells
  rw [← changes_of_tick hs] at hleads
  have hcommitted : s.state.Reflects (finalWorld (e.after calls).runTick.1) := by
    rw [(snapshot_of_tick hs).2]
    apply World.Sound.reflects_stored
    exact htraced.sound.world.congr rfl rfl rfl
  have hfinal : final.Reflects (finalWorld (e.after calls).runTick.1) :=
    htraced.reflects.congr rfl rfl rfl
  have hsame := hfinal.sameCells hcommitted
  refine ⟨⟨final, hleads.replays, hsame⟩, ?_⟩
  intro path hchanged
  by_contra hunnamed
  apply hchanged
  rw [← hsame.peekAt path]
  apply hleads.replays.peekAt_eq hleads.spares
  intro c hc hparse
  obtain ⟨x, hx, hcx⟩ := List.mem_flatMap.mp hc
  exact hunnamed ⟨x, hx, c, hcx, hparse⟩

def tower : Rule :=
  { Stage.ranked "tower" 1 with
    actions := [Stage.zoning "harbour",
      ⟨.add, .ofList [("target", "global_metrics.visits"), ("value", 1)]⟩] }

/-- An engine with a single rule, over an empty world. -/
def soleEngine (rule : Rule) : Engine :=
  { rules := Rule.byPriority [rule]
    maxChainDepth := standardChainDepth
    policy := .standard
    translator := .builtIn
    store := ⟨(default : World).stored, []⟩
    bus := (EventBus.new .tick).load ∅
    pending := [] }

theorem soleEngine_commits (rule : Rule) :
    ∃ notice s, new default ⟨[rule], .standard⟩ .standard = .ok (soleEngine rule, notice) ∧
      (soleEngine rule).tick.snapshot = .ok s := by
  obtain ⟨notice, hnew⟩ : ∃ notice,
      new default ⟨[rule], .standard⟩ .standard = .ok (soleEngine rule, notice) := ⟨_, rfl⟩
  obtain ⟨s, hs⟩ := fresh_tick_commits hnew
  exact ⟨notice, s, hnew, hs⟩

/-- Its rule has its turn, if it asks for no other. -/
theorem runTick_soleEngine (rule : Rule)
    (hquiet : ∀ action ∈ rule.actions, action.kind ≠ .triggerRule) :
    (soleEngine rule).runTick.1 = Tick.turns ⟨[rule], standardChainDepth⟩ [rule]
      ((soleEngine rule).beginTick (default : World).stored.stored.time
        (default : World).stored.stored) := by
  have hsorted : Rule.byPriority [rule] = [rule] :=
    List.perm_singleton.mp (Rule.perm_byPriority _)
  unfold runTick tickRules
  simp only [soleEngine, hsorted]
  exact Tick.drain_eq_turns (List.forall_mem_singleton.mpr hquiet)

theorem leavesCell_tower :
    ∀ a ∈ (soleEngine tower).runTick.1.applications, a.LeavesCell := by
  have hcells : (soleEngine tower).runTick.1.applications.all (fun a =>
      decide (Path.Ordinary a.action.target.plainText) && a.after.isCell) = true := by
    rw [runTick_soleEngine tower (by decide)]
    decide +kernel
  intro a ha _ _
  have hcell := List.all_eq_true.mp hcells a ha
  rw [Bool.and_eq_true, decide_eq_true_eq] at hcell
  exact ⟨hcell.1, .inr hcell.2⟩

theorem tower_explained :
    (∀ a ∈ (soleEngine tower).runTick.1.applications, a.LeavesCell) ∧
      ∃ s final, (soleEngine tower).tick.snapshot = .ok s ∧
        Replays (soleEngine tower).runTick.2.world
          (s.record.explanations.flatMap (·.effect.changes)) final ∧ final.SameCells s.state := by
  obtain ⟨notice, s, hnew, hs⟩ := soleEngine_commits tower
  have hempty : (∅ : Record Value).Solid := ⟨List.nodup_nil, rfl⟩
  have hsolid : ((soleEngine tower).after []).runTick.2.world.Solid := by
    refine ⟨?_, hempty, hempty⟩
    intro name a ha
    cases ha
  have hfirst : ((soleEngine tower).after []).tick.snapshot = .ok s := hs
  obtain ⟨⟨final, hreplays, hsame⟩, -⟩ :=
    explained_changes_lead_to_state hnew hfirst hsolid leavesCell_tower
  exact ⟨leavesCell_tower, s, final, hs, hreplays, hsame⟩

/-- A rule that sets what the environment falls back on to a number. -/
def founding : Rule :=
  { Stage.ranked "founding" 1 with
    actions := [⟨.set, .ofList [("target", "environment.__proto__"), ("value", 5)]⟩] }

/-- A change is explained that is never committed. -/
theorem founding_explained :
    ∃ s, (soleEngine founding).tick.snapshot = .ok s ∧
      (s.record.explanations.flatMap (·.effect.changes)).map
          (fun c => (c.target.plainText, c.latter.number?)) =
        [("environment.__proto__", some 5)] ∧
      s.state.environment.get? "__proto__" = none ∧
      s.state.peek "environment.__proto__" = .ok (.native .root) := by
  obtain ⟨notice, s, -, hs⟩ := soleEngine_commits founding
  have hrun := runTick_soleEngine founding (by decide)
  have hnone : s.state.environment.get? "__proto__" = none := by
    rw [(snapshot_of_tick hs).2, ← Option.isNone_iff_eq_none, hrun]
    decide +kernel
  refine ⟨s, hs, ?_, hnone, ?_⟩
  · rw [changes_of_tick hs, hrun]
    decide +kernel
  · have hpath : Path.parse? "environment.__proto__" = some (.environmentField "__proto__") := by
      decide +kernel
    refine (World.require_bind_eq_ok_iff _ _ _).mpr ⟨_, hpath, congrArg Except.ok ?_⟩
    simp [Record.answer, Record.find?, Record.baseName, hnone]

end Engine

end Harbormaster
