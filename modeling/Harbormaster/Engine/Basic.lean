import Harbormaster.Engine.Tick
import Harbormaster.History.Cursor
import Harbormaster.Input.Basic
import Harbormaster.Rule.Order

/-!
The engine runs a world tick by tick: it applies the inputs that were handed in,
lets every rule have its turn and commits an explained snapshot. Every engine
has its own history and its own events.
-/

namespace Harbormaster

structure EngineOptions where
  /-- The deepest chain of triggered rules, 32 unless it is given. -/
  maxChainDepth : Value
  lifetime : Lifetime
  /-- Stands in for the strategy of the rule set's policy. -/
  strategy : Option Strategy
  translator : Translator

def EngineOptions.standard : EngineOptions := ⟨.missing, .tick, none, Translator.builtIn⟩

structure Engine where
  /-- The rules by descending priority, those of equal priority as declared. -/
  rules : List Rule
  maxChainDepth : Nat
  policy : Policy
  translator : Translator
  store : Store TickReport
  bus : EventBus
  /-- The inputs that wait for the next tick. -/
  pending : List Input

/-- The outcome of a tick and the engine after it. -/
structure TickResult where
  engine : Engine
  snapshot : Except Failure Snapshot
  notices : List Notice

/-- A world with inputs applied, and what became of each. -/
structure InputsOutcome where
  world : World
  applied : List String
  failures : List InputFailure
  notices : List Notice

namespace Engine

def standardChainDepth : Nat := 32

/-- Chain depths are whole and not negative. -/
def chainDepth (v : Value) : Except Failure Nat :=
  match v with
  | .missing | .absent => .ok standardChainDepth
  | .number n =>
    match n.toInt? with
    | some (.ofNat depth) => .ok depth
    | _ => .error (.engine (.invalidChainDepth v))
  | _ => .error (.engine (.invalidChainDepth v))

/-- The first rule id that was declared before. -/
def duplicateId? : List String → List Rule → Option String
  | _, [] => none
  | seen, rule :: rest =>
    if seen.contains rule.id then some rule.id else duplicateId? (rule.id :: seen) rest

/-- An engine over a world, with the notice that it is ready. -/
def new (initial : World) (rules : RuleSet) (options : EngineOptions) :
    Except Failure (Engine × Notice) := do
  let maxChainDepth ← chainDepth options.maxChainDepth
  match duplicateId? [] rules.rules with
  | some id => .error (.engine (.duplicateRule id))
  | none =>
    let store ← Store.ofWorld initial
    .ok (
      { rules := Rule.byPriority rules.rules
        maxChainDepth
        policy := { rules.policy with strategy := options.strategy.getD rules.policy.strategy }
        translator := options.translator
        store
        bus := (EventBus.new options.lifetime).load (initial.events.map Event.stored)
        pending := [] },
      .debug ("DecisionEngine: Loaded " ++ rules.rules.length.repr ++
        " rule(s), max chain depth " ++ (Number.ofNat maxChainDepth).toText ++ "."))

/-- Hands in an input for the next tick. -/
def submit (e : Engine) (input : Input) : Engine :=
  { e with pending := e.pending ++ [input.stored] }

/-- Hands in a write for the next tick. -/
def submitWrite (e : Engine) (path value : Value) : Engine :=
  e.submit (.write path value)

/-- Removes an event, so that later ticks do not see it. -/
def consume (e : Engine) (eventType : String) : Bool × Engine × List Notice :=
  let (found, bus) := e.bus.consume eventType
  (found, { e with bus },
    if found then [.debug ("DecisionEngine: Consumed event \"" ++ eventType ++ "\".")] else [])

def state (e : Engine) : World := e.store.current

def history (e : Engine) : List Snapshot := e.store.commits

/-- Performs writes in order, until one of them fails. -/
def performWrites : List Write → World → Except Failure World
  | [], w => .ok w
  | write :: rest, w =>
    match w.write write.path write.value with
    | .ok w => performWrites rest w
    | .error failure => .error failure

/-- Applies one input to a copy of the world; it takes effect whole or not at
all. -/
def applyInput (translator : Translator) (o : InputsOutcome) (input : Input) : InputsOutcome :=
  let scratch := o.world.stored
  match (translator.translate input scratch).bind (performWrites · scratch) with
  | .ok world => { o with world, applied := o.applied ++ [input.describe] }
  | .error failure =>
    { o with
      failures := o.failures ++ [⟨input.describe, failure.recorded.line⟩]
      notices := o.notices ++
        [.warning ("DecisionEngine: Input " ++ input.describe ++ " rejected: " ++
          failure.message)] }

/-- Applies inputs in the order in which they were handed in. -/
def applyInputs (translator : Translator) (inputs : List Input) (w : World) : InputsOutcome :=
  inputs.foldl (applyInput translator) ⟨w, [], [], []⟩

def tickRules (e : Engine) : TickRules := ⟨e.rules, e.maxChainDepth⟩

/-- The tick before its first rule, over the world with the inputs applied. -/
def beginTick (e : Engine) (number : Number) (world : World) : Tick :=
  let (bus, notices) := e.bus.beginTick number
  { number
    stage :=
      { world := { world with events := bus.events }
        ledger := (Ledger.new e.policy).beginTick number
        bus }
    drafts := []
    overflow := none
    actionsApplied := 0
    actionsFailed := 0
    notices }

/-- The report of a tick whose rules have all had their turn. -/
def reportOf (t : Tick) (inputs : InputsOutcome) : TickReport :=
  let explanations := t.drafts.map Draft.build
  let conflicts := t.stage.ledger.records
  { explanations
    conflicts
    inputsApplied := inputs.applied
    inputFailures := inputs.failures
    chainOverflow := t.overflow
    stats :=
      { rulesEvaluated := .ofNat explanations.length
        rulesTriggered := .ofNat (explanations.filter (·.triggered)).length
        actionsApplied := .ofNat t.actionsApplied
        actionsFailed := .ofNat t.actionsFailed
        conflicts := .ofNat conflicts.length
        eventsSpawned := .ofNat t.stage.bus.spawned.length } }

/-- The world that a tick commits. -/
def finalWorld (t : Tick) : World :=
  { t.stage.world with events := t.stage.bus.listed, timeStep := .number (t.number + 1) }

/-- The tick with all rules evaluated, and what became of the inputs. -/
def runTick (e : Engine) : Tick × InputsOutcome :=
  let working := e.state.stored
  let inputs := applyInputs e.translator e.pending working
  let t := e.beginTick working.time inputs.world
  (Tick.drain e.tickRules e.rules (e.rules.map QueueEntry.base) t, inputs)

def startNotice (number : Number) : Notice :=
  .debug ("DecisionEngine: Starting tick " ++ number.toText ++ ".")

/-- Runs one tick and commits it. -/
def completeTick (e : Engine) : TickResult :=
  let (t, inputs) := e.runTick
  let report := reportOf t inputs
  let notices := startNotice t.number :: inputs.notices ++ t.notices
  let next := { e with bus := t.stage.bus, pending := [] }
  match e.store.commit (.number t.number) report (finalWorld t) with
  | .error failure => ⟨next, .error failure, notices⟩
  | .ok (store, snapshot, notice) =>
    { engine := { next with store }
      snapshot := .ok snapshot
      notices := notices ++
        [notice, .debug ("DecisionEngine: Tick " ++ t.number.toText ++ " done: " ++
          report.stats.rulesTriggered.toText ++ "/" ++ report.stats.rulesEvaluated.toText ++
          " rule(s) triggered, " ++ report.stats.conflicts.toText ++ " conflict(s).")] }

/-- The tick ends at the first input that reports cannot name. The inputs before it have been
tried on copies of the world, and all of them are gone. -/
def abandonTick (e : Engine) : TickResult :=
  let working := e.state.stored
  let tried := e.pending.takeWhile (·.isNameable)
  { engine := { e with pending := [] }
    snapshot := .error (.access .noText)
    notices := startNotice working.time :: (applyInputs e.translator tried working).notices }

/-- Runs one tick. -/
def tick (e : Engine) : TickResult :=
  if e.pending.all (·.isNameable) then e.completeTick else e.abandonTick

/-- Runs several ticks; a tick that is not committed ends the run. -/
def run : Nat → Engine → Engine × Except Failure (List Snapshot) × List Notice
  | 0, e => (e, .ok [], [])
  | count + 1, e =>
    let first := e.tick
    match first.snapshot with
    | .error failure => (first.engine, .error failure, first.notices)
    | .ok snapshot =>
      let (engine, rest, notices) := run count first.engine
      (engine, rest.map (snapshot :: ·), first.notices ++ notices)

end Engine

end Harbormaster
