import Harbormaster.Proofs.Engine.Filled

/-!
Engines that take up a run where a snapshot left it. The committed world is the whole
memory of an engine, apart from how long its history is: engines that agree in it, in
their setup and in the inputs that wait give the same answers from then on. Their
histories differ in length and in where they begin, and the number that is expected next
is the same only as long as ticks are counted exactly, up to `2 ^ 53`.
-/

namespace Harbormaster.Engine

inductive Reply where
  | nothing
  | consumed (found : Bool)
  | ticked (outcome : Except Failure Snapshot)

def reply (e : Engine) : Call → Reply
  | .submit _ | .submitWrite .. => .nothing
  | .consume eventType => .consumed (e.consume eventType).1
  | .tick => .ticked e.tick.snapshot

/-- What an engine answers to calls that are made one after the other. -/
def replies : Engine → List Call → List Reply
  | _, [] => []
  | e, c :: rest => e.reply c :: replies (e.call c) rest

variable {e f : Engine} {initial : World} {rules : RuleSet} {options : EngineOptions}
  {notice : Notice} {start lead : Nat}

/-- Engines that agree in everything but their histories. -/
structure Alike (e f : Engine) : Prop where
  setup : SameSetup e f
  lifetime : f.bus.lifetime = e.bus.lifetime
  events : f.bus.events = e.bus.events
  pending : f.pending = e.pending
  state : f.state = e.state

/-- The history of the first engine began at `start`, and that of the second one begins
where the first one had led it by `lead` ticks. -/
structure TakesUp (start lead : Nat) (e f : Engine) : Prop where
  former : e.store.initial.timeStep = .number (.ofNat start)
  later : f.store.initial.timeStep = .number (.ofNat (start + lead))
  history : e.history.length = lead + f.history.length

/-- Engines that are alike go through the same tick. -/
theorem Alike.runTick (h : Alike e f) : f.runTick = e.runTick := by
  have hbus : ∀ number, f.bus.beginTick number = e.bus.beginTick number := by
    intro number
    simp only [EventBus.beginTick, h.lifetime, h.events]
  simp only [Engine.runTick, tickRules, beginTick, hbus, h.state, h.pending, h.setup.rules,
    h.setup.maxChainDepth, h.setup.policy, h.setup.translator]

theorem TakesUp.nextTick (h : TakesUp start lead e f) (hbegins : start + lead ≤ Number.exactLimit)
    (hlength : e.history.length ≤ Number.exactLimit) : f.store.nextTick = e.store.nextTick := by
  have hformer : e.store.nextTick = .ofNat (e.history.length + start) := by
    rw [Store.nextTick, World.time_of_timeStep h.former]
    exact Number.ofNat_add hlength (by omega)
  have hlater : f.store.nextTick = .ofNat (f.history.length + (start + lead)) := by
    have hshorter : f.history.length ≤ Number.exactLimit := by
      have hhistory := h.history
      omega
    rw [Store.nextTick, World.time_of_timeStep h.later]
    exact Number.ofNat_add hshorter hbegins
  rw [hformer, hlater, h.history]
  congr 1
  omega

theorem Alike.nameable (h : Alike e f) : f.Nameable ↔ e.Nameable := by
  unfold Nameable
  rw [h.pending]

theorem Alike.afterwards (h : Alike e f) {bus bus' : EventBus} {store store' : Store TickReport}
    (hlifetime : bus'.lifetime = bus.lifetime) (hevents : bus'.events = bus.events)
    (hstate : store'.current = store.current) :
    Alike { e with bus, pending := [], store }
      { f with bus := bus', pending := [], store := store' } :=
  ⟨⟨h.setup.rules, h.setup.maxChainDepth, h.setup.policy, h.setup.translator⟩, hlifetime, hevents,
    rfl, hstate⟩

/-- They commit the same, or nothing for the same reason, and stay alike. -/
theorem Alike.tick (h : Alike e f) (hnext : f.store.nextTick = e.store.nextTick) :
    f.tick.snapshot = e.tick.snapshot ∧ Alike e.tick.engine f.tick.engine := by
  have hrun := h.runTick
  by_cases hnameable : e.Nameable
  · have hsnapshot : f.tick.snapshot = e.tick.snapshot := by
      rw [snapshot_eq (h.nameable.mpr hnameable), snapshot_eq hnameable, hrun, hnext]
    refine ⟨hsnapshot, ?_⟩
    cases hs : e.tick.snapshot with
    | ok s =>
      have hf : f.tick.snapshot = .ok s := hsnapshot.trans hs
      have hstate := (state_of_commit hf).trans (state_of_commit hs).symm
      rw [(engine_of_commit hf).2, (engine_of_commit hs).2, hrun] at *
      exact h.afterwards rfl rfl hstate
    | error failure =>
      rw [engine_of_completed hnameable hs,
        engine_of_completed (h.nameable.mpr hnameable) (hsnapshot.trans hs), hrun]
      exact h.afterwards rfl rfl h.state
  · rw [tick_of_not_nameable hnameable, tick_of_not_nameable (mt h.nameable.mp hnameable)]
    exact ⟨rfl, h.afterwards h.lifetime h.events h.state⟩

theorem TakesUp.tick (h : TakesUp start lead e f) (hsame : f.tick.snapshot = e.tick.snapshot) :
    TakesUp start lead e.tick.engine f.tick.engine := by
  cases hs : e.tick.snapshot with
  | ok s =>
    have hf : f.tick.snapshot = .ok s := hsame.trans hs
    have hlength : e.tick.engine.history.length = lead + f.tick.engine.history.length := by
      rw [history_of_commit hs, history_of_commit hf, List.length_append, List.length_append,
        h.history, Nat.add_assoc]
    rw [(engine_of_commit hf).2, (engine_of_commit hs).2] at *
    exact ⟨h.former, h.later, hlength⟩
  | error failure =>
    obtain ⟨_, hengine, -⟩ := engine_of_refusal hs
    obtain ⟨_, hengine', -⟩ := engine_of_refusal (hsame.trans hs)
    rw [hengine, hengine']
    exact ⟨h.former, h.later, h.history⟩

/-- A call is answered alike, and leaves engines that are alike. -/
theorem Alike.call (h : Alike e f) (hclock : TakesUp start lead e f)
    (hnext : f.store.nextTick = e.store.nextTick) (c : Call) :
    f.reply c = e.reply c ∧ Alike (e.call c) (f.call c) ∧
      TakesUp start lead (e.call c) (f.call c) := by
  have hsetup := h.setup
  have hpending : ∀ input, (f.submit input).pending = (e.submit input).pending :=
    fun input => congrArg (· ++ [input.stored]) h.pending
  cases c with
  | submit input =>
    exact ⟨rfl, ⟨⟨hsetup.1, hsetup.2, hsetup.3, hsetup.4⟩, h.lifetime, h.events, hpending input,
      h.state⟩, ⟨hclock.former, hclock.later, hclock.history⟩⟩
  | submitWrite path value =>
    exact ⟨rfl, ⟨⟨hsetup.1, hsetup.2, hsetup.3, hsetup.4⟩, h.lifetime, h.events, hpending _,
      h.state⟩, ⟨hclock.former, hclock.later, hclock.history⟩⟩
  | consume eventType =>
    have hfound : (f.consume eventType).1 = (e.consume eventType).1 :=
      congrArg (·.contains eventType) h.events
    exact ⟨congrArg Reply.consumed hfound, ⟨⟨hsetup.1, hsetup.2, hsetup.3, hsetup.4⟩, h.lifetime,
      congrArg (·.erase eventType) h.events, h.pending, h.state⟩,
      ⟨hclock.former, hclock.later, hclock.history⟩⟩
  | tick =>
    obtain ⟨hsnapshot, halike⟩ := h.tick hnext
    exact ⟨congrArg Reply.ticked hsnapshot, halike, hclock.tick hsnapshot⟩

/-- Engines that are alike answer alike as long as ticks are counted exactly. -/
theorem Alike.replies (h : Alike e f) (hclock : TakesUp start lead e f)
    (hbegins : start + lead ≤ Number.exactLimit) {calls : List Call}
    (hlimit : e.history.length + ticks calls ≤ Number.exactLimit) :
    f.replies calls = e.replies calls := by
  induction calls generalizing e f with
  | nil => rfl
  | cons c rest ih =>
    have hticks := ticks_cons c rest
    have hlength := history_length_call e c
    obtain ⟨hreply, halike, hlater⟩ := h.call hclock (hclock.nextTick hbegins (by omega)) c
    have hrest := ih halike hlater (by omega)
    rw [Engine.replies, Engine.replies, hreply, hrest]

/-- A world that is committed below the limit can start a history, and has the events that
the engine goes on with unless one of them stands under the name of what all others fall back
on. -/
theorem Filled.restorable (h : e.Filled) (hregular : e.Keeps World.Regular)
    (hfinite : e.KeepsFinite .tick)
    (hbase : e.runTick.1.stage.bus.events.get? Record.baseName = none) {s : Snapshot}
    (hs : e.tick.snapshot = .ok s) {n : Nat} (hlimit : n ≤ Number.exactLimit)
    (htime : s.state.timeStep = .number (.ofNat n)) :
    s.state.fault? = none ∧ s.state.stored = s.state ∧
      s.state.events.map Event.stored = e.tick.engine.bus.events := by
  have hstate := (snapshot_of_tick hs).2
  have hstage := h.runTick hfinite
  have hends := hfinite.ended rfl
  have hkept : s.state.stored = s.state := by
    rw [hstate, World.stored_stored]
  have hfields : s.state.agents.All fun a => a.fields.Filled :=
    hstate ▸ (madeOf_finalWorld hstage).fields_stored hends
  have hworld : s.state.Regular := hstate ▸ (hregular.finalWorld World.stable_regular).stored
  refine ⟨hworld.fault?_eq_none hfields hlimit htime, hkept, ?_⟩
  have hsame : s.state.events.map Event.stored = s.state.events := congrArg World.events hkept
  have hlisted : e.runTick.1.stage.bus.listed = e.runTick.1.stage.bus.events :=
    congrArg Record.mk (Record.filter_of_absent hbase)
  have hevents := hends.events
  change e.runTick.1.stage.bus.listed.All Event.Finite at hevents
  rw [hsame, hstate, (engine_of_commit hs).2]
  change (e.runTick.1.stage.bus.listed).map Event.stored = e.runTick.1.stage.bus.events
  rw [hlisted] at hevents ⊢
  refine congrArg Record.mk ((List.map_congr_left fun entry hentry => ?_).trans (List.map_id _))
  rw [Event.Finite.stored (hevents entry hentry) (hstage.bus.events entry hentry)]
  rfl

/-- An engine that is set up with the world and the events another one has come to, by the
same rules and options, is alike to it once no input waits. -/
theorem alike_of_new {w : World} {notice' : Notice}
    (hnew : new initial rules options = .ok (e, notice)) (calls : List Call)
    (hrestored : new w rules options = .ok (f, notice')) (hstate : (e.after calls).state = w.stored)
    (hevents : (e.after calls).bus.events = w.events.map Event.stored)
    (hpending : (e.after calls).pending = []) : Alike (e.after calls) f := by
  have hsetup := sameSetup_after e calls
  obtain ⟨horder, -⟩ := of_new hnew
  obtain ⟨hdepth, hpolicy, hlifetime⟩ := setup_of_new hnew
  obtain ⟨hgiven, -, -⟩ := given_of_new hnew
  obtain ⟨horder', -, -, hstore', -⟩ := of_new hrestored
  obtain ⟨hdepth', hpolicy', hlifetime'⟩ := setup_of_new hrestored
  obtain ⟨hgiven', hbus', hpending'⟩ := given_of_new hrestored
  refine ⟨⟨?_, ?_, ?_, ?_⟩, ?_, ?_, ?_, ?_⟩
  · rw [hsetup.rules, horder, horder']
  · rw [hsetup.maxChainDepth]
    exact Except.ok.inj (hdepth'.symm.trans hdepth)
  · rw [hsetup.policy, hpolicy, hpolicy']
  · rw [hsetup.translator, hgiven, hgiven']
  · rw [lifetime_after, hlifetime, hlifetime']
  · rw [hbus', hevents]
  · rw [hpending', hpending]
  · rw [hstate, state, hstore']
    rfl

/-- A run in which all numbers stay finite can be taken up where any of its snapshots left
it: an engine can be set up with the committed world, the same rules and the same options,
and whatever is asked from then on it answers as the former engine does. Ticks have to be
counted exactly for this, so the snapshot is numbered below `2 ^ 53` and there are no more
than `2 ^ 53` ticks in all; and no event may stand under the name of what all others fall
back on, since a document does not list it. -/
theorem restored_engine_continues (hnew : new initial rules options = .ok (e, notice))
    (hrules : rules.Typed) (henvironment : initial.environment.Filled)
    (hevents : initial.events.All Event.Typed) (htranslator : options.translator.Filled)
    (hinitial : initial.Finite) {calls : List Call} (hcalls : ∀ c ∈ calls, c.Typed)
    (hfinite : e.StaysFinite (calls ++ [.tick]))
    (hbegins : initial.time.toInt? = some (start : Int)) (hlimit : start + ticks calls + 1 ≤ 2 ^ 53)
    {s : Snapshot} (hs : (e.after calls).tick.snapshot = .ok s)
    (hbase : (e.after calls).runTick.1.stage.bus.events.get? Record.baseName = none) :
    ∃ f notice', new s.state rules options = .ok (f, notice') ∧
      ∀ later, ticks calls + 1 + ticks later ≤ 2 ^ 53 →
        f.replies later = (e.after (calls ++ [.tick])).replies later := by
  have hexact : Number.exactLimit = 2 ^ 53 := rfl
  obtain ⟨hbefore, hlast, -⟩ := (staysFinite_append e calls [.tick]).mp hfinite
  have hfilled : (e.after calls).Filled :=
    (filled_of_new hnew hrules hinitial henvironment hevents htranslator).after hcalls hbefore
  obtain ⟨-, hdistinct, hinitially, -⟩ := of_new hnew
  have hregular : (e.after calls).Keeps World.Regular :=
    (keeps_of_new World.stable_regular hnew (World.regular_of_fault? hinitially
      (hinitial.metrics_of_fault? hinitially))).after World.stable_regular calls
  -- what the clock says when the snapshot is committed
  obtain ⟨start', hbegins', honTime, hnone⟩ := onTime_of_new hnew
  obtain rfl : start = start' := Int.ofNat_inj.mp (Option.some.inj (hbegins.symm.trans hbegins'))
  have hempty : e.history.length = 0 := congrArg List.length hnone
  obtain ⟨hafter, hcount⟩ := honTime.after calls (by omega)
  obtain ⟨s', hs', -, htime, hhistory, hstate, hthen⟩ :=
    hafter.tick (nameable_of_tick hs) (by omega)
  obtain rfl : s = s' := Except.ok.inj (hs.symm.trans hs')
  obtain ⟨hfault, hkept, hsame⟩ := hfilled.restorable hregular hlast hbase hs (by omega) htime
  -- the restored engine and the one that goes on
  obtain ⟨hdepth, -, -⟩ := setup_of_new hnew
  obtain ⟨f, notice', hrestored⟩ := new_succeeds hdepth hdistinct hfault
  refine ⟨f, notice', hrestored, ?_⟩
  have hgoesOn : e.after (calls ++ [.tick]) = (e.after calls).tick.engine := by
    rw [after, List.foldl_append]
    rfl
  have halike : Alike (e.after (calls ++ [.tick])) f := by
    refine alike_of_new hnew _ hrestored ?_ ?_ ?_
    · rw [hgoesOn, hstate, hkept]
    · rw [hgoesOn, hsame]
    · rw [hgoesOn, (engine_of_commit hs).2]
  have hclock : TakesUp start ((e.after calls).history.length + 1)
      (e.after (calls ++ [.tick])) f := by
    obtain ⟨-, -, -, hstore, -⟩ := of_new hrestored
    rw [hgoesOn]
    refine ⟨hthen.begun, ?_, ?_⟩
    · rw [hstore, hkept, htime, Nat.add_assoc]
    · rw [hhistory, List.length_append, history, history, hstore]
      simp
  intro later hlater
  refine halike.replies hclock (by omega) ?_
  rw [hgoesOn, hhistory, List.length_append, List.length_singleton]
  omega

/-- The tug takes its fuel in a restored harbour as it would have in the former one. -/
theorem fuel_run_is_restored :
    ∃ s f notice, (tugEngine 1).tick.snapshot = .ok s ∧
      new s.state ⟨[refuel 1], .standard⟩ .standard = .ok (f, notice) ∧
      ∀ later, ticks later < 2 ^ 53 →
        f.replies later = ((tugEngine 1).after [.tick]).replies later := by
  obtain ⟨notice, hnew⟩ := new_tugEngine 1
  obtain ⟨s, hs⟩ := fresh_tick_commits hnew
  have hrules := RuleSet.typed_of_document (refuelDocument_accepted 1)
  have hinitial : (fuelled 1).Finite := by decide +kernel
  have hstate : (tugEngine 1).state.stored.Finite := by
    have hkept : (tugEngine 1).state.stored = (fuelled 1).stored := World.stored_stored _
    rw [hkept]
    decide +kernel
  have hfinal : (finalWorld (tugEngine 1).runTick.1).Finite := by
    unfold finalWorld
    rw [turns_tugEngine 1]
    decide +kernel
  have hfinite : (tugEngine 1).StaysFinite [.tick] := by
    refine ⟨⟨?_, ?_, fun _ => hfinal⟩, trivial⟩
    · intro input hinput
      cases hinput
    · intro _ former hformer
      rw [List.prefix_nil.mp hformer]
      exact hstate
  have hbegins : (fuelled 1).time.toInt? = some ((0 : Nat) : Int) := by decide +kernel
  have hcommitted : ((tugEngine 1).after []).tick.snapshot = .ok s := hs
  have hbase : ((tugEngine 1).after []).runTick.1.stage.bus.events.get? Record.baseName = none := by
    change (tugEngine 1).runTick.1.stage.bus.events.get? Record.baseName = none
    rw [turns_tugEngine 1, ← Option.isNone_iff_eq_none]
    decide +kernel
  obtain ⟨f, restored, hrestored, hreplies⟩ := restored_engine_continues hnew hrules
    Record.all_empty Record.all_empty Translator.filled_builtIn hinitial
    (fun _ hc => (List.not_mem_nil hc).elim) hfinite hbegins Nat.one_le_two_pow hcommitted
    hbase
  refine ⟨s, f, restored, hs, hrestored, ?_⟩
  intro later hlater
  refine hreplies later ?_
  change 0 + 1 + ticks later ≤ 2 ^ 53
  omega

/-- A world in which there is nothing but a time beyond which it cannot be counted on. -/
def lateWorld : World := { (default : World) with timeStep := .number (.ofNat (2 ^ 53)) }

structure Late (passed : Nat) (e : Engine) : Prop where
  rules : e.rules = []
  pending : e.pending = []
  state : e.state = lateWorld
  events : e.bus.events = ∅
  initial : e.store.initial = lateWorld
  history : e.history.length = passed

theorem fault?_lateWorld : lateWorld.fault? = none :=
  World.Regular.fault?_eq_none ⟨fun _ ha => (List.not_mem_nil ha).elim, Record.all_empty⟩
    Record.all_empty le_rfl rfl

theorem finite_lateWorld : lateWorld.Finite :=
  ⟨Record.all_empty, Record.all_empty, Record.all_empty, Record.all_empty⟩

theorem stored_lateWorld : lateWorld.stored = lateWorld := by
  have hexact : (Number.ofNat (2 ^ 53)).isFinite = true := Number.isFinite_ofNat le_rfl
  have htime : (Value.number (.ofNat (2 ^ 53))).stored = .number (.ofNat (2 ^ 53)) := by
    rw [Value.stored, if_pos hexact]
  unfold World.stored lateWorld
  dsimp only
  rw [htime]
  rfl

/-- In the late world time stands still. -/
theorem Late.runTick {passed : Nat} (h : Late passed e) :
    e.runTick.1.number = .ofNat (2 ^ 53) ∧ finalWorld e.runTick.1 = lateWorld ∧
      e.runTick.1.stage.bus.events = ∅ := by
  have hstill : Number.ofNat (2 ^ 53) + 1 = .ofNat (2 ^ 53) := by decide +kernel
  have hnumber : e.runTick.1.number = .ofNat (2 ^ 53) := by
    have hbegun : e.runTick.1.number = e.state.stored.time := Tick.drain_number _ _
    rw [hbegun, h.state, stored_lateWorld, World.time_of_timeStep rfl]
  have hbus : ∀ number, (e.bus.beginTick number).1.events = ∅ := by
    intro number
    unfold EventBus.beginTick
    dsimp only
    split
    · rfl
    · exact h.events
  have hstage : e.runTick.1.stage = e.start := by
    unfold start Engine.runTick
    dsimp only
    rw [h.rules, List.map_nil, Tick.drain]
  have hworld : e.start.world = lateWorld := by
    change { (applyInputs e.translator e.pending e.state.stored).world with
      events := (e.bus.beginTick e.state.stored.time).1.events } = lateWorld
    rw [hbus, h.pending, h.state, stored_lateWorld]
    rfl
  refine ⟨hnumber, ?_, ?_⟩
  · unfold finalWorld
    rw [hnumber, hstill, hstage, hworld]
    have hlisted : e.start.bus.listed = ∅ := congrArg (·.erase Record.baseName) (hbus _)
    rw [hlisted]
    rfl
  · rw [hstage]
    exact hbus _

theorem Late.finite {passed : Nat} (h : Late passed e) : e.KeepsFinite .tick := by
  refine ⟨fun _ hinput => (nomatch hinput), ?_, ?_⟩
  · intro _ former hformer
    rw [h.pending, List.prefix_nil] at hformer
    rw [hformer, h.state, stored_lateWorld]
    exact finite_lateWorld
  · intro _
    rw [h.runTick.2.1]
    exact finite_lateWorld

theorem Late.nameable {passed : Nat} (h : Late passed e) : e.Nameable := by
  intro input hinput
  rw [h.pending] at hinput
  cases hinput

theorem Late.snapshot {passed : Nat} (h : Late passed e) :
    e.tick.snapshot =
      if (Number.ofNat (2 ^ 53)).eq (.ofNat passed + .ofNat (2 ^ 53)) then
        .ok ⟨.ofNat passed + .ofNat (2 ^ 53), (reportOf e.runTick.1 e.runTick.2).stored, lateWorld⟩
      else .error (.store (.unexpectedTick (.ofNat passed + .ofNat (2 ^ 53))
        (.number (.ofNat (2 ^ 53))))) := by
  have hlength : e.store.commits.length = passed := h.history
  have hnext : e.store.nextTick = .ofNat passed + .ofNat (2 ^ 53) := by
    rw [Store.nextTick, h.initial, World.time_of_timeStep rfl, hlength]
  rw [snapshot_eq h.nameable, h.runTick.1, h.runTick.2.1, stored_lateWorld, hnext, Value.sameItem]

theorem Late.commits {passed : Nat} (h : Late passed e)
    (hnumber : (Number.ofNat (2 ^ 53)).eq (.ofNat passed + .ofNat (2 ^ 53)) = true) :
    ∃ s, e.tick.snapshot = .ok s ∧ s.state = lateWorld ∧ Late (passed + 1) e.tick.engine := by
  obtain ⟨s, hs, hstate⟩ : ∃ s, e.tick.snapshot = .ok s ∧ s.state = lateWorld := by
    rw [h.snapshot, if_pos hnumber]
    exact ⟨_, rfl, rfl⟩
  have hcurrent := (state_of_commit hs).trans hstate
  have hhistory := history_of_commit hs
  refine ⟨s, hs, hstate, ?_, ?_, hcurrent, ?_, ?_, ?_⟩
  · rw [(sameSetup_tick e).rules, h.rules]
  · rw [(engine_of_commit hs).2]
  · rw [(engine_of_commit hs).2]
    exact h.runTick.2.2
  · rw [(engine_of_commit hs).2]
    exact h.initial
  · rw [hhistory, List.length_append, h.history]
    rfl

/-- Beyond `2 ^ 53` a run and its restoration part: time stands still in the world, and the
history that counts from further back is the first to see it. -/
theorem late_run_is_not_restored :
    ∃ e s f notice notice', new lateWorld ⟨[], .standard⟩ .standard = .ok (e, notice) ∧
      e.StaysFinite [.tick, .tick, .tick] ∧ e.tick.snapshot = .ok s ∧
      new s.state ⟨[], .standard⟩ .standard = .ok (f, notice') ∧
      f.replies [.tick, .tick] ≠ (e.after [.tick]).replies [.tick, .tick] := by
  obtain ⟨e, notice, hnew⟩ := @new_succeeds lateWorld ⟨[], .standard⟩ .standard _ rfl
    List.nodup_nil fault?_lateWorld
  obtain ⟨-, -, -, hstore, -⟩ := of_new hnew
  obtain ⟨-, hbus, hpending⟩ := given_of_new hnew
  have hlate : Late 0 e := by
    refine ⟨(perm_rules_after hnew []).eq_nil, hpending, ?_, hbus, ?_, ?_⟩
    · rw [state_of_new hnew]
      exact stored_lateWorld
    · rw [hstore]
      exact stored_lateWorld
    · rw [history, hstore]
      rfl
  obtain ⟨s, hs, hstate, hfirst⟩ := hlate.commits (by decide +kernel)
  obtain ⟨s', hs', -, hsecond⟩ := hfirst.commits (by decide +kernel)
  obtain ⟨failure, hthird⟩ :
      ∃ failure, e.tick.engine.tick.engine.tick.snapshot = .error failure := by
    have hnumber : (Number.ofNat (2 ^ 53)).eq (.ofNat 2 + .ofNat (2 ^ 53)) = false := by
      decide +kernel
    rw [hsecond.snapshot, hnumber]
    exact ⟨_, rfl⟩
  refine ⟨e, s, e, notice, notice, hnew, ⟨hlate.finite, hfirst.finite, hsecond.finite, trivial⟩, hs,
    hstate.symm ▸ hnew, ?_⟩
  intro hsame
  have hboth : Reply.ticked e.tick.engine.tick.snapshot =
      Reply.ticked e.tick.engine.tick.engine.tick.snapshot :=
    (List.cons.inj (List.cons.inj hsame).2).1
  rw [hs', hthird] at hboth
  cases hboth

end Harbormaster.Engine
