import Harbormaster.Action.Execution
import Harbormaster.Engine.Snapshot
import Harbormaster.Explanation.Draft

/-!
A tick in progress. Rules wait in a queue, at first all of them in the order of
their priorities; the rules that an action triggers are put in front of it. A
rule is evaluated once in a tick, however often it is asked for, so the queue
runs out: each entry either evaluates a rule that was still waiting or is
dropped. A chain of triggered rules that gets too deep halts all chaining for
the rest of the tick.
-/

namespace Harbormaster

/-- A place in the queue of a tick. -/
structure QueueEntry where
  ruleId : String
  triggeredBy : Option String
  depth : Nat
  /-- The rules from the start of the chain to this one. -/
  chain : List String
  deriving DecidableEq, Repr

/-- The place of a rule that no other rule has asked for. -/
def QueueEntry.base (rule : Rule) : QueueEntry := ⟨rule.id, none, 0, [rule.id]⟩

/-- The rules of an engine as a tick needs them. -/
structure TickRules where
  rules : List Rule
  maxChainDepth : Nat

def TickRules.known (r : TickRules) (id : String) : Bool := r.rules.any (·.id = id)

structure Tick where
  number : Number
  stage : Stage
  /-- The drafts of the rules evaluated so far, in order. -/
  drafts : List Draft
  overflow : Option ChainOverflow
  actionsApplied : Nat
  actionsFailed : Nat
  notices : List Notice

/-- What becomes of a request to run a rule. -/
inductive Scheduling where
  | queued (entry : QueueEntry)
  | ignored (note : String)
  | overflowed (overflow : ChainOverflow)

namespace Tick

def note (t : Tick) (notices : List Notice) : Tick := { t with notices := t.notices ++ notices }

/-- Whether chaining has been halted. -/
def halted (t : Tick) : Bool := t.overflow.isSome

/-- Changes the draft of a rule, if it has one. -/
def updateDraft (t : Tick) (rule : String) (f : Draft → Draft) : Tick :=
  { t with drafts := t.drafts.map fun d => if d.rule.id = rule then f d else d }

def ignoredNote (rule : String) : String :=
  "Re-trigger of '" ++ rule ++ "' ignored: already evaluated this tick"

/-- Decides what becomes of a request by the rule at `source` to run `target`;
`waiting` are the rules not evaluated yet and `scheduled` the requests of the
same rule that were accepted before. -/
def schedule (t : Tick) (limit : Nat) (waiting : List Rule) (source : QueueEntry)
    (scheduled : List QueueEntry) (target : String) : Scheduling :=
  if t.halted then
    .ignored ("Trigger of '" ++ target ++ "' ignored: chaining halted for this tick")
  else if !waiting.any (·.id = target) || scheduled.any (·.ruleId = target) then
    .ignored (ignoredNote target)
  else
    let depth := source.depth + 1
    let chain := source.chain ++ [target]
    if limit < depth then
      .overflowed ⟨target, source.ruleId, .ofNat depth, .ofNat limit, chain⟩
    else .queued ⟨target, some source.ruleId, depth, chain⟩

/-- The summary of a conflict for the rules that took part in it. -/
def conflictSummary (r : ConflictRecord) : String :=
  let fallback := match r.result.fallbackFrom with
    | some strategy => " after " ++ strategy.text ++ " failed"
    | none => ""
  "Conflict " ++ r.id ++ " on " ++ r.path ++ ": " ++ r.strategy.text ++ fallback ++ " -> " ++
    r.result.finalValue.trace ++
    (if r.resolved then "" else " (unresolved, awaiting manual review)")

/-- Reports a conflict to every rule that took part in it. -/
def attachConflict (t : Tick) (id : String) : Tick :=
  match t.stage.ledger.records.find? (·.id = id) with
  | none => t
  | some record =>
    record.conflictingRules.foldl
      (fun t rule => t.updateDraft rule (·.recordConflict id (conflictSummary record))) t

/-- Records an action that was applied. -/
def recordApplied (t : Tick) (rule : Rule) (a : Application) : Tick :=
  let t := { t.updateDraft rule.id (·.recordApplication a) with
    actionsApplied := t.actionsApplied + 1 }
  match a.conflictId with
  | some id => t.attachConflict id
  | none => t

/-- Records the action at which a rule stops. -/
def recordFailed (t : Tick) (rule : Rule) (action : Action) (failure : Failure) : Tick :=
  let t := t.updateDraft rule.id fun d =>
    (d.recordApplication (.failed action failure .absent)).addFailure failure.recorded
  { t with
    actionsFailed := t.actionsFailed + 1
    notices := t.notices ++
      [.debug ("DecisionEngine: Rule \"" ++ rule.id ++ "\" stopped at " ++ action.kind.text ++
        ": " ++ failure.message)] }

/-- Halts all chaining for the rest of the tick. -/
def halt (t : Tick) (overflow : ChainOverflow) : Tick :=
  { t with
    overflow := some overflow
    notices := t.notices ++
      [.warning ("DecisionEngine: Rule chain overflow in tick " ++ t.number.toText ++ ": " ++
        " -> ".intercalate overflow.chain)] }

/-- Applies the actions of a rule in order, until one of them fails. Gives the
requests to run other rules that were accepted, in order. -/
def applyActions (r : TickRules) (waiting : List Rule) (source : QueueEntry) (rule : Rule) :
    List Action → Tick → List QueueEntry → Tick × List QueueEntry
  | [], t, scheduled => (t, scheduled)
  | action :: rest, t, scheduled =>
    let execution := t.stage.execute r.known rule action
    let t := { t with stage := execution.stage }.note execution.notices
    match execution.result with
    | .error failure => (t.recordFailed rule action failure, scheduled)
    | .ok application =>
      match application.triggerRequest with
      | none => applyActions r waiting source rule rest (t.recordApplied rule application) scheduled
      | some target =>
        match t.schedule r.maxChainDepth waiting source scheduled target with
        | .queued entry =>
          applyActions r waiting source rule rest (t.recordApplied rule application)
            (scheduled ++ [entry])
        | .ignored note =>
          applyActions r waiting source rule rest
            ((t.updateDraft rule.id (·.addSideEffect note)).recordApplied rule
              { application with
                triggerRequest := none
                message := application.message ++ " (ignored)" })
            scheduled
        | .overflowed overflow =>
          let failure := Failure.chainOverflow overflow.ruleId (.number overflow.depth)
            (.number overflow.limit)
          ((t.halt overflow).recordFailed rule action failure, scheduled)

/-- Evaluates a rule that has not been evaluated in this tick; `waiting` are the
rules that are left after it. -/
def evaluateRule (r : TickRules) (waiting : List Rule) (entry : QueueEntry) (rule : Rule)
    (t : Tick) : Tick × List QueueEntry :=
  let outcome := evaluateConditions rule.conditions rule.junction t.stage.world
  let draft := (Draft.new rule t.number (.ofText? entry.triggeredBy)).recordConditions outcome
  let t := { t with drafts := t.drafts ++ [draft] }
  if outcome.triggered then
    let cause := match entry.triggeredBy with
      | some id => if id.isEmpty then "" else " by \"" ++ id ++ "\""
      | none => ""
    applyActions r waiting entry rule rule.actions
      (t.note [.debug ("DecisionEngine: Rule \"" ++ rule.id ++ "\" triggered" ++ cause ++ ".")]) []
  else (t, [])

/-- The queue after a rule: what it asked for comes first. Once chaining has been
halted only the entries remain that no rule has asked for. -/
def queueAfter (t : Tick) (scheduled queue : List QueueEntry) : List QueueEntry :=
  if t.halted then queue.filter (·.triggeredBy.isNone) else scheduled ++ queue

/-- Notes on the rule that asked for it that a rule had been evaluated already. -/
def noteIgnored (t : Tick) (entry : QueueEntry) : Tick :=
  match entry.triggeredBy with
  | some source => t.updateDraft source (·.addSideEffect (ignoredNote entry.ruleId))
  | none => t

/-- Works off the queue; `waiting` are the rules not evaluated yet. -/
def drain (r : TickRules) (waiting : List Rule) (queue : List QueueEntry) (t : Tick) : Tick :=
  match queue with
  | [] => t
  | entry :: rest =>
    match _found : waiting.find? (·.id = entry.ruleId) with
    | none => drain r waiting rest (t.noteIgnored entry)
    | some rule =>
      let waiting := waiting.eraseP (·.id = entry.ruleId)
      let (t, scheduled) := evaluateRule r waiting entry rule t
      drain r waiting (t.queueAfter scheduled rest) t
termination_by (waiting.length, queue.length)
decreasing_by
  · exact Prod.Lex.right _ (Nat.lt_succ_self _)
  · refine Prod.Lex.left _ _ ?_
    have member := List.mem_of_find?_eq_some _found
    have found := List.find?_some _found
    rw [List.length_eraseP_of_mem member found]
    exact Nat.sub_lt (List.length_pos_of_mem member) (by decide)

end Tick

end Harbormaster
