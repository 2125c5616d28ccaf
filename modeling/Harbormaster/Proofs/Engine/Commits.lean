import Harbormaster.Proofs.Conflict.Atomicity
import Harbormaster.Proofs.Engine.Clock
import Harbormaster.Proofs.Event.Visibility
import Harbormaster.Proofs.Input.Copies
import Harbormaster.Proofs.Rule.Order
import Harbormaster.Proofs.Rule.Reading
import Harbormaster.Proofs.Tick.Contents
import Harbormaster.Proofs.World.Filled

/-!
What is lost between ticks. An engine copies what it is given and what it commits as
documents, and a document has no way to write a number that is not finite, a function that
all records share or what a record falls back on. Throughout a run the fields of agents and of
the environment are made of plain items, of which exactly the solid ones come through a copy;
so nothing is lost as long as inputs and sums stay finite and nothing is written that was
never given, and something is lost in the first tick that ends with a field where this is not
so. Metrics, which take finite numbers only, are not looked at.
-/

namespace Harbormaster

namespace Value

theorem record?_of_isStorable {v : Value} (h : v.isStorable = true) : v.record? = none := by
  cases v with
  | record => cases h
  | missing | absent | boolean | number | text | list | native | fallback => rfl

/-- What is solid and made of plain items is no marker, so that a cell may hold it unless it is
a record. -/
theorem isStorable_of_isSolid {v : Value} (hmade : v.isMadeOf isPlainItem = true)
    (hsolid : v.isSolid = true) (hrecord : v.record? = none) : v.isStorable = true := by
  cases v with
  | list | boolean | number | text => exact isStorable_of_isPlain hmade hsolid
  | record => cases hrecord
  | missing | absent | native | fallback => cases hsolid

end Value

namespace World

variable {u w : World}

/-- What a field of an agent or of the environment holds. -/
def field? (w : World) : Path → Option Value
  | .agentField agent field => (w.agents.get? agent).bind (·.fields.get? field)
  | .environmentField field => w.environment.get? field
  | .metric _ | .event .. => none

/-- Every field of `u` holds a number, a text, a truth value or a list of those, and
the same as in `w`. -/
def Keeps (u w : World) : Prop :=
  ∀ path, u.field? path = w.field? path ∧ ∀ v, u.field? path = some v → v.isStorable = true

/-- Every field holds something that was given, no record and no number that is not finite. -/
def Lasts (w : World) : Prop :=
  ∀ path v, w.field? path = some v → v.isSolid = true ∧ v.record? = none

theorem field?_stored (h : w.Distinct) (path : Path) :
    w.stored.field? path = (w.field? path).bind Value.kept? := by
  cases path with
  | metric | event => rfl
  | environmentField field => exact Record.get?_stored h.environment field
  | agentField agent field =>
    have hagents : w.stored.agents.get? agent = (w.agents.get? agent).map Agent.stored :=
      Record.get?_map _ _ _
    simp only [field?, hagents]
    cases ha : w.agents.get? agent with
    | none => rfl
    | some a => exact Record.get?_stored (h.fields agent a ha) field

theorem MadeOf.of_field? {item : Value → Bool} (h : w.MadeOf item) {path : Path} {v : Value}
    (hv : w.field? path = some v) : v.isMadeOf item = true := by
  cases path with
  | metric | event => cases hv
  | environmentField field => exact h.environment.get? hv
  | agentField agent field =>
    obtain ⟨a, ha, hfield⟩ := Option.bind_eq_some_iff.mp hv
    exact (h.fields.get? ha).get? hfield

/-- Whether a world lasts can be told from what is listed in it. -/
theorem lasts_of_entries
    (hagents : ∀ a ∈ w.agents.entries, ∀ field ∈ a.2.fields.entries,
      (field.2.isSolid && field.2.record?.isNone) = true)
    (henvironment : ∀ field ∈ w.environment.entries,
      (field.2.isSolid && field.2.record?.isNone) = true) : w.Lasts := by
  intro path v hv
  have hboth : (v.isSolid && v.record?.isNone) = true := by
    cases path with
    | metric | event => cases hv
    | environmentField field => exact henvironment _ (Record.mem_of_get? hv)
    | agentField agent field =>
      obtain ⟨a, ha, hfield⟩ := Option.bind_eq_some_iff.mp hv
      exact hagents _ (Record.mem_of_get? ha) _ (Record.mem_of_get? hfield)
  rwa [Bool.and_eq_true, Option.isNone_iff_eq_none] at hboth

/-- A document keeps the fields of a world of plain items exactly if they are solid. -/
theorem stored_keeps_iff (hmade : w.MadeOf Value.isPlainItem) (hdistinct : w.Distinct) :
    w.stored.Keeps w ↔ w.Lasts := by
  constructor
  · intro hkeeps path v hv
    obtain ⟨hsame, hstorable⟩ := hkeeps path
    have hkept := field?_stored hdistinct path
    rw [hsame, hv, Option.bind_some] at hkept
    have hfield := hstorable v (hsame.trans hv)
    exact ⟨Value.isSolid_of_kept? hfield hkept.symm, Value.record?_of_isStorable hfield⟩
  · intro hlasts path
    have hsame : w.stored.field? path = w.field? path := by
      rw [field?_stored hdistinct]
      cases hv : w.field? path with
      | none => rfl
      | some v => exact Value.kept?_of_isSolid (hlasts path v hv).1
    refine ⟨hsame, ?_⟩
    intro v hv
    rw [hsame] at hv
    obtain ⟨hsolid, hrecord⟩ := hlasts path v hv
    exact Value.isStorable_of_isSolid (hmade.of_field? hv) hsolid hrecord

end World

namespace Engine

variable {e : Engine}

def Call.Typed (c : Call) : Prop := ∀ input ∈ c.input?, input.Typed

/-- An engine of well-typed rules that has seen nothing but plain values. -/
structure Plain (e : Engine) : Prop where
  rules : ∀ rule ∈ e.rules, ∀ action ∈ rule.actions, action.Typed
  translator : e.translator.Plain
  state : e.state.MadeOf Value.isPlainItem
  distinct : e.state.Distinct
  kept : e.state.stored = e.state
  events : e.bus.events.All fun event => event.members.MadeOf Value.isPlainItem
  pending : ∀ input ∈ e.pending, input.parameters.Plain

theorem madeOf_beginTick {item : Value → Bool} {b : EventBus} (hitem : Value.Items item)
    (h : b.events.All fun event => event.members.MadeOf item) (n : Number) :
    (b.beginTick n).1.MadeOf item := by
  have htick : (Value.number n).isMadeOf item = true :=
    Value.isMadeOf_of_item hitem (hitem.scalar rfl)
  unfold EventBus.beginTick
  dsimp only
  split
  · exact ⟨Record.all_empty, htick⟩
  · exact ⟨h, htick⟩

/-- A tick begins with what its inputs leave and its bus shows. -/
theorem madeOf_start {item : Value → Bool} (hitem : Value.Items item)
    (hworld : e.runTick.2.world.MadeOf item)
    (hevents : e.bus.events.All fun event => event.members.MadeOf item) :
    e.start.MadeOf item := by
  have hbus := madeOf_beginTick hitem hevents e.state.stored.time
  exact ⟨⟨hworld.fields, hworld.environment, hworld.metrics, hbus.events⟩, Record.all_empty, hbus⟩

/-- So do its rules go on with it. -/
theorem madeOf_runTick {item : Value → Bool} (hitem : Value.Items item)
    (hrules : ∀ rule ∈ e.rules, ∀ action ∈ rule.actions, action.Typed)
    (hworld : e.runTick.2.world.MadeOf item)
    (hevents : e.bus.events.All fun event => event.members.MadeOf item) :
    e.runTick.1.stage.MadeOf item := by
  obtain ⟨steps, hsteps, hstage⟩ := stage_runTick e
  rw [hstage]
  refine (madeOf_start hitem hworld hevents).after hitem ?_
  intro step hstep
  obtain ⟨hrule, haction⟩ := hsteps step hstep
  exact hrules step.1 hrule step.2 haction

theorem madeOf_finalWorld {item : Value → Bool} (h : e.runTick.1.stage.MadeOf item) :
    (finalWorld e.runTick.1).MadeOf item :=
  ⟨h.world.fields, h.world.environment, h.world.metrics, Record.All.erase h.bus.events _⟩

theorem distinct_finalWorld (h : e.runTick.2.world.Distinct) :
    (finalWorld e.runTick.1).Distinct := by
  obtain ⟨steps, -, hstage⟩ := stage_runTick e
  have hstart : e.start.world.Distinct := ⟨h.fields, h.environment, h.metrics⟩
  have hend : e.runTick.1.stage.world.Distinct := hstage ▸ Stage.distinct_after hstart steps
  exact ⟨hend.fields, hend.environment, hend.metrics⟩

/-- The inputs of a tick leave nothing but plain items. -/
theorem Plain.inputs (h : e.Plain) :
    e.runTick.2.world.MadeOf Value.isPlainItem ∧ e.runTick.2.world.Distinct :=
  madeOf_applyInputs h.translator h.pending h.state.stored h.distinct.stored

theorem Plain.runTick (h : e.Plain) : e.runTick.1.stage.MadeOf Value.isPlainItem :=
  madeOf_runTick Value.items_isPlainItem h.rules h.inputs.1 h.events

theorem Plain.finalWorld (h : e.Plain) :
    (finalWorld e.runTick.1).MadeOf Value.isPlainItem ∧ (finalWorld e.runTick.1).Distinct :=
  ⟨madeOf_finalWorld h.runTick, distinct_finalWorld h.inputs.2⟩

/-- After a tick no input waits any more. The history is as it was or ends with the world of
the tick, and its events are there unless the tick has not come to them. -/
theorem engine_of_tick (e : Engine) :
    ∃ store bus, e.tick.engine = { e with bus, pending := [], store } ∧
      (store.current = e.state ∨ store.current = (Engine.finalWorld e.runTick.1).stored) ∧
      (bus = e.runTick.1.stage.bus ∨ bus = e.bus) := by
  cases hs : e.tick.snapshot with
  | error failure =>
    obtain ⟨bus, hengine, hbus⟩ := engine_of_refusal hs
    exact ⟨e.store, bus, hengine, .inl rfl, hbus⟩
  | ok s =>
    refine ⟨_, _, (engine_of_commit hs).2, .inr ?_, .inl rfl⟩
    simp [Store.current, (snapshot_of_tick hs).2]

theorem Plain.tick (h : e.Plain) : e.tick.engine.Plain := by
  obtain ⟨hfinal, hdistinct⟩ := h.finalWorld
  obtain ⟨store, bus, hengine, hcurrent, hbus⟩ := engine_of_tick e
  have hstate : store.current.MadeOf Value.isPlainItem ∧ store.current.Distinct ∧
      store.current.stored = store.current := by
    rcases hcurrent with hstays | hcommits
    · rw [hstays]
      exact ⟨h.state, h.distinct, h.kept⟩
    · rw [hcommits]
      exact ⟨hfinal.stored, hdistinct.stored, World.stored_stored _⟩
  have hevents : bus.events.All fun event => event.members.MadeOf Value.isPlainItem := by
    rcases hbus with hran | hstays
    · rw [hran]
      exact h.runTick.bus.events
    · rw [hstays]
      exact h.events
  obtain ⟨hmade, hnames, hkept⟩ := hstate
  rw [hengine]
  refine ⟨h.rules, h.translator, hmade, hnames, hkept, hevents, ?_⟩
  exact fun input hinput => (List.not_mem_nil hinput).elim

theorem Plain.submit (h : e.Plain) {input : Input} (hinput : input.Typed) :
    (e.submit input).Plain := by
  refine ⟨h.rules, h.translator, h.state, h.distinct, h.kept, h.events, ?_⟩
  intro other hother
  rcases List.mem_append.mp hother with hformer | hlast
  · exact h.pending other hformer
  · rw [List.mem_singleton.mp hlast]
    exact hinput.plain_stored

theorem Plain.consume (h : e.Plain) (eventType : String) : (e.consume eventType).2.1.Plain :=
  ⟨h.rules, h.translator, h.state, h.distinct, h.kept, Record.All.erase h.events eventType,
    h.pending⟩

theorem Plain.call (h : e.Plain) {c : Call} (hc : c.Typed) : (e.call c).Plain := by
  cases c with
  | submit | submitWrite => exact h.submit (hc _ rfl)
  | consume eventType => exact h.consume eventType
  | tick => exact h.tick

theorem Plain.after (h : e.Plain) {calls : List Call} (hcalls : ∀ c ∈ calls, c.Typed) :
    (e.after calls).Plain := by
  induction calls generalizing e with
  | nil => exact h
  | cons c rest ih =>
    exact ih (h.call (hcalls c List.mem_cons_self)) fun later hlater =>
      hcalls later (List.mem_cons_of_mem _ hlater)

end Engine

/-- A world that can start a history has agents and metrics of what cells may hold. -/
theorem World.madeOf_of_fault? {item : Value → Bool} (hitem : Value.Items item) {w : World}
    (h : w.fault? = none) (henvironment : w.environment.Filled)
    (hevents : w.events.All Event.Typed) : w.MadeOf item := by
  obtain ⟨hagents, hrest⟩ := Option.or_eq_none_iff.mp h
  have hmetrics := (Option.or_eq_none_iff.mp hrest).1
  rw [List.findSome?_eq_none_iff] at hagents hmetrics
  refine ⟨?_, henvironment.madeOf hitem, ?_, Record.All.imp hevents fun _ he => he.madeOf hitem⟩
  · intro a ha field hfield
    have hagent := hagents a ha
    unfold agentFault? at hagent
    split at hagent
    · have hnone := List.findSome?_eq_none_iff.mp hagent field hfield
      apply Value.isMadeOf_of_isStorable hitem
      by_contra hnot
      rw [if_neg hnot] at hnone
      cases hnone
    · cases hagent
  · intro metric hmetric
    have hfits := hmetrics metric hmetric
    unfold metricFault? at hfits
    cases hvalue : metric.2 with
    | number n => exact Value.isMadeOf_of_item hitem (hitem.scalar rfl)
    | missing | absent | boolean | text | list | record | native | fallback =>
      rw [hvalue] at hfits
      cases hfits

namespace Engine

variable {e : Engine} {initial : World} {rules : RuleSet} {options : EngineOptions}
  {notice : Notice}

/-- What an engine starts with besides its rules and its history. -/
theorem given_of_new (h : new initial rules options = .ok (e, notice)) :
    e.translator = options.translator ∧ e.bus.events = initial.events.map Event.stored ∧
      e.pending = [] := by
  simp only [new, bind, Except.bind] at h
  split at h
  · cases h
  · split at h
    · cases h
    · split at h
      · cases h
      · cases h
        exact ⟨rfl, rfl, rfl⟩

/-- What the options of an engine decide. -/
theorem setup_of_new (h : new initial rules options = .ok (e, notice)) :
    chainDepth options.maxChainDepth = .ok e.maxChainDepth ∧
      e.policy = { rules.policy with strategy := options.strategy.getD rules.policy.strategy } ∧
      e.bus.lifetime = options.lifetime := by
  obtain ⟨depth, hdepth, h⟩ := ok_of_bind h
  split at h
  · cases h
  · obtain ⟨store, -, h⟩ := ok_of_bind h
    cases h
    exact ⟨hdepth, rfl, rfl⟩

theorem lifetime_of_step {s s' : Stage} {known : String → Bool} {rule : Rule} {action : Action}
    (h : Stage.Step s known rule action s') : s'.bus.lifetime = s.bus.lifetime := by
  cases h with
  | nothing | wrote | spawned => rfl

theorem lifetime_runTick (e : Engine) :
    e.runTick.1.stage.bus.lifetime = e.bus.lifetime := by
  obtain ⟨steps, -, hstage⟩ := stage_runTick e
  have hkept : (e.start.after e.tickRules.known steps).bus.lifetime = e.start.bus.lifetime :=
    Stage.after_preserves (P := fun s => s.bus.lifetime = e.start.bus.lifetime)
      (fun hs hstep => (lifetime_of_step hstep).trans hs) rfl steps
  rw [hstage, hkept]
  exact EventBus.lifetime_beginTick e.bus _

/-- No call changes how long events stay. -/
theorem lifetime_after (e : Engine) (calls : List Call) :
    (e.after calls).bus.lifetime = e.bus.lifetime := by
  induction calls generalizing e with
  | nil => rfl
  | cons c rest ih =>
    refine (ih (e.call c)).trans ?_
    cases c with
    | submit | submitWrite | consume => rfl
    | tick =>
      obtain ⟨_, bus, hengine, -, hbus⟩ := engine_of_tick e
      change e.tick.engine.bus.lifetime = e.bus.lifetime
      rw [hengine]
      rcases hbus with rfl | rfl
      · exact lifetime_runTick e
      · rfl

theorem plain_of_new (h : new initial rules options = .ok (e, notice)) (hrules : rules.Typed)
    (hdistinct : initial.Distinct)
    (henvironment : ∀ name v, initial.environment.get? name = some v → v.isStorable = true)
    (hevents : initial.events.All Event.Typed) (htranslator : options.translator.Plain) :
    e.Plain := by
  obtain ⟨-, -, hfault, -, -⟩ := of_new h
  obtain ⟨hgiven, hbus, hpending⟩ := given_of_new h
  have hstate := state_of_new h
  have hfilled : initial.environment.Filled := fun entry hentry =>
    henvironment entry.1 entry.2 (Record.get?_of_mem hdistinct.environment hentry)
  have hmade : initial.MadeOf Value.isPlainItem :=
    World.madeOf_of_fault? Value.items_isPlainItem hfault hfilled hevents
  refine ⟨?_, ?_, ?_, ?_, ?_, ?_, ?_⟩
  · exact fun rule hrule => hrules rule ((perm_rules_after h []).mem_iff.mp hrule)
  · rw [hgiven]
    exact htranslator
  · rw [hstate]
    exact hmade.stored
  · rw [hstate]
    exact hdistinct.stored
  · rw [hstate]
    exact World.stored_stored _
  · rw [hbus]
    exact hmade.stored.events
  · rw [hpending]
    exact fun input hinput => (List.not_mem_nil hinput).elim

/-- Nothing is lost in the copies that a call makes: inputs wait as they were handed
in, a tick begins with the state that was committed, and the fields that it commits
are those that its world ended with. -/
structure Lossless (e : Engine) (c : Call) : Prop where
  submitted : ∀ input ∈ c.input?, (e.call c).pending = e.pending ++ [input]
  begun : c = .tick → e.state.stored = e.state
  committed : c = .tick → ∀ s, e.tick.snapshot = .ok s → s.state.Keeps (finalWorld e.runTick.1)

/-- Only finite numbers are handed in, and a tick that is committed leaves only such
numbers, and something everywhere, in the fields of its world. -/
structure Finite (e : Engine) (c : Call) : Prop where
  submitted : ∀ input ∈ c.input?, input.Solid
  committed : c = .tick → ∀ s, e.tick.snapshot = .ok s → (finalWorld e.runTick.1).Lasts

theorem pending_of_call {c : Call} {input : Input} (hinput : input ∈ c.input?) :
    (e.call c).pending = e.pending ++ [input.stored] := by
  cases c with
  | submit | submitWrite =>
    cases hinput
    rfl
  | consume | tick => cases hinput

theorem Plain.lossless_iff (h : e.Plain) {c : Call} (hc : c.Typed) : e.Lossless c ↔ e.Finite c := by
  obtain ⟨hfinal, hdistinct⟩ := h.finalWorld
  constructor
  · intro hlossless
    constructor
    · intro input hinput
      have hsame := hlossless.submitted input hinput
      rw [pending_of_call hinput, List.append_cancel_left_eq] at hsame
      exact ((hc input hinput).stored_eq_iff).mp (List.singleton_inj.mp hsame)
    · intro htick s hs
      have hkeeps := hlossless.committed htick s hs
      rw [(snapshot_of_tick hs).2] at hkeeps
      exact (World.stored_keeps_iff hfinal hdistinct).mp hkeeps
  · intro hfinite
    refine ⟨?_, fun _ => h.kept, ?_⟩
    · intro input hinput
      rw [pending_of_call hinput,
        ((hc input hinput).stored_eq_iff).mpr (hfinite.submitted input hinput)]
    · intro htick s hs
      rw [(snapshot_of_tick hs).2]
      exact (World.stored_keeps_iff hfinal hdistinct).mpr (hfinite.committed htick s hs)

/-- At every moment of every run of an engine over an accepted rule set and world, a
call loses nothing if and only if no number that is not finite comes into it: neither
by an input nor by a field that a tick leaves behind. -/
theorem nothing_is_lost_iff {raw : Value} {source : String}
    (hrules : RuleSet.ofDocument raw source = .ok rules)
    (hnew : new initial rules options = .ok (e, notice)) (hdistinct : initial.Distinct)
    (henvironment : ∀ name v, initial.environment.get? name = some v → v.isStorable = true)
    (hevents : initial.events.All Event.Typed)
    (htranslator : options.translator.Plain) {calls : List Call} {c : Call}
    (hcalls : ∀ former ∈ calls, former.Typed) (hc : c.Typed) :
    (e.after calls).Lossless c ↔ (e.after calls).Finite c := by
  have htyped := RuleSet.typed_of_document hrules
  have hplain := plain_of_new hnew htyped hdistinct henvironment hevents htranslator
  exact (hplain.after hcalls).lossless_iff hc

def refuelAction (n : Number) : Record Value :=
  ⟨[("type", "ADD"), ("target", "agents.tug.fuel"), ("value", .number n)]⟩

def refuelMembers (n : Number) : Record Value :=
  ⟨[("id", "refuel"), ("priority", 1), ("action", .list [.record (refuelAction n)])]⟩

def refuelDocument (n : Number) : Record Value := ⟨[("rules", .list [.record (refuelMembers n)])]⟩

def refuel (n : Number) : Rule :=
  { Stage.ranked "refuel" 1 with actions := [Document.keptAction .add (refuelAction n)] }

theorem refuel_readFrom (n : Number) : (refuel n).ReadFrom ["refuel"] (refuelMembers n) where
  id := rfl
  named := (by decide : "refuel" ≠ "")
  priority := ⟨rfl, 1, rfl, by decide +kernel⟩
  logic := ⟨rfl, .all, rfl⟩
  conditions := ⟨[], rfl, .nil⟩
  actions := by
    have hpasses : Action.Passes ["refuel"] ⟨.add, refuelAction n⟩ :=
      (Document.passes_iff "").mpr rfl
    exact ⟨_, rfl, .cons ⟨_, rfl, rfl, .inl rfl, rfl, hpasses⟩ .nil⟩
  acts := nofun
  template := rfl
  metadata := rfl
  strategy := .inl rfl

theorem refuelDocument_accepted (n : Number) :
    RuleSet.ofDocument (.record (refuelDocument n)) "rules" = .ok ⟨[refuel n], .standard⟩ := by
  refine RuleSet.ofDocument_eq_ok_iff.mpr ⟨_, rfl, ⟨_, rfl, ?_⟩, ?_, .standard, nofun⟩
  · exact .cons ⟨_, rfl, refuel_readFrom n⟩ .nil
  · exact List.nodup_singleton _

/-- A world of which only the fuel of the tug is known. -/
def fuelled (n : Number) : World :=
  { (default : World) with
    agents := .ofList [("tug", ⟨"tug", .ofList [("fuel", .number n)], ∅⟩)] }

def tugEngine (n : Number) : Engine :=
  { rules := Rule.byPriority [refuel n]
    maxChainDepth := standardChainDepth
    policy := .standard
    translator := .builtIn
    store := ⟨(fuelled n).stored, []⟩
    bus := (EventBus.new .tick).load ∅
    pending := [] }

theorem rules_tugEngine (n : Number) : (tugEngine n).rules = [refuel n] := by
  have hrank : (refuel n).rank = 1 := rfl
  have hnumbers : ∀ rule ∈ [refuel n], rule.rank.isNaN = false := by
    intro rule hrule
    rw [List.mem_singleton.mp hrule, hrank]
    decide +kernel
  unfold tugEngine
  rw [Rule.byPriority_eq_self hnumbers (List.pairwise_singleton _ _)]

theorem new_tugEngine (n : Number) :
    ∃ notice, new (fuelled n) ⟨[refuel n], .standard⟩ .standard = .ok (tugEngine n, notice) :=
  ⟨_, rfl⟩

theorem distinct_fuelled (n : Number) : (fuelled n).Distinct := by
  refine ⟨?_, List.nodup_nil, List.nodup_nil⟩
  intro name a ha
  cases List.mem_singleton.mp (Record.mem_of_get?_ofList ha)
  exact List.nodup_singleton _

theorem turns_tugEngine (n : Number) :
    (tugEngine n).runTick.1.stage = (Tick.turns (tugEngine n).tickRules [refuel n]
      ((tugEngine n).beginTick (tugEngine n).state.stored.time
        (tugEngine n).runTick.2.world)).stage := by
  have hquiet : ∀ rule ∈ [refuel n], ∀ action ∈ rule.actions, action.kind ≠ .triggerRule := by
    intro rule hrule action haction
    cases List.mem_singleton.mp hrule
    cases List.mem_singleton.mp haction
    exact ActionKind.noConfusion
  rw [← Tick.drain_eq_turns hquiet, ← rules_tugEngine n]
  rfl

/-- With a little fuel the tick loses nothing. -/
theorem fuel_is_kept : (tugEngine 1).Lossless .tick := by
  obtain ⟨notice, hnew⟩ := new_tugEngine 1
  have hiff : ((tugEngine 1).after []).Lossless .tick ↔ ((tugEngine 1).after []).Finite .tick := by
    refine nothing_is_lost_iff (refuelDocument_accepted 1) hnew (distinct_fuelled 1) ?_ ?_
      Translator.plain_builtIn ?_ ?_
    · intro name v hv
      cases hv
    · exact Record.all_empty
    · exact fun c hc => (List.not_mem_nil hc).elim
    · intro input hinput
      cases hinput
  refine hiff.mpr ⟨?_, ?_⟩
  · intro input hinput
    cases hinput
  · intro _ _ _
    apply World.lasts_of_entries
    · show ∀ a ∈ (finalWorld (tugEngine 1).runTick.1).agents.entries, _
      unfold finalWorld
      rw [turns_tugEngine 1]
      decide +kernel
    · show ∀ field ∈ (finalWorld (tugEngine 1).runTick.1).environment.entries, _
      unfold finalWorld
      rw [turns_tugEngine 1]
      decide +kernel

/-- The sum of two numbers near the limit is committed as nothing. -/
theorem fuel_is_lost :
    RuleSet.ofDocument (.record (refuelDocument 1e308)) "rules" = .ok ⟨[refuel 1e308], .standard⟩ ∧
      (∃ notice, new (fuelled 1e308) ⟨[refuel 1e308], .standard⟩ .standard =
        .ok (tugEngine 1e308, notice)) ∧
      (fuelled 1e308).Solid ∧
      ∃ s, (tugEngine 1e308).tick.snapshot = .ok s ∧
        (finalWorld (tugEngine 1e308).runTick.1).field? (.agentField "tug" "fuel") =
          some (.number (.infinite false)) ∧
        s.state.field? (.agentField "tug" "fuel") = some .absent := by
  obtain ⟨notice, hnew⟩ := new_tugEngine 1e308
  obtain ⟨s, hs⟩ := fresh_tick_commits hnew
  have hplain : (tugEngine 1e308).Plain := by
    refine plain_of_new hnew (RuleSet.typed_of_document (refuelDocument_accepted 1e308))
      (distinct_fuelled 1e308) ?_ ?_ Translator.plain_builtIn
    · intro name v hv
      cases hv
    · exact Record.all_empty
  have hnumber : ((finalWorld (tugEngine 1e308).runTick.1).field?
      (.agentField "tug" "fuel")).bind Value.number? = some (.infinite false) := by
    unfold finalWorld
    rw [turns_tugEngine 1e308]
    decide +kernel
  have hinfinite : (finalWorld (tugEngine 1e308).runTick.1).field? (.agentField "tug" "fuel") =
      some (.number (.infinite false)) := by
    obtain ⟨v, hv, hn⟩ := Option.bind_eq_some_iff.mp hnumber
    rwa [Value.number?_eq_some_iff.mp hn] at hv
  refine ⟨refuelDocument_accepted 1e308, ⟨notice, hnew⟩, ?_, s, hs, hinfinite, ?_⟩
  · refine ⟨?_, ⟨List.nodup_nil, rfl⟩, ⟨List.nodup_nil, rfl⟩⟩
    intro name a ha
    cases List.mem_singleton.mp (Record.mem_of_get?_ofList ha)
    exact ⟨rfl, ⟨List.nodup_singleton _, by decide +kernel⟩, ⟨List.nodup_nil, rfl⟩⟩
  · rw [(snapshot_of_tick hs).2, World.field?_stored hplain.finalWorld.2, hinfinite]
    rfl

end Engine

end Harbormaster
