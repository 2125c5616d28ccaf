import Harbormaster.Expression.Operand

/-!
Reading rule sets from documents. A document is taken whole or not at all: every
structural problem in it is collected, each with the place where it was found,
and one problem is enough to refuse it. An accepted document has as many rules,
conditions and actions as it lists, in the same order.
-/

namespace Harbormaster

/-- A part of a document after its check: what it says, if it says it properly,
and what is wrong with it. -/
structure Checked (α : Type) where
  value : Option α
  problems : List String

namespace Document

def problem (place message : String) : String := place ++ ": " ++ message

def problemIf (wrong : Bool) (place message : String) : List String :=
  if wrong then [problem place message] else []

/-- The value of a part without problems. -/
def accept {α : Type} (value : Option α) (problems : List String) : Checked α :=
  ⟨if problems.isEmpty then value else none, problems⟩

/-- The parts of a list, each checked with its place in it. -/
def checkEach {α : Type} (check : Nat → Value → Checked α) (items : List Value) :
    Checked (List α) :=
  let parts := items.mapIdx check
  accept (some (parts.filterMap (·.value))) (parts.flatMap (·.problems))

/-- A member that has to be one of several texts. -/
def isOneOf (options : List String) (v : Value) : Bool :=
  match v with
  | .text s => options.contains s
  | _ => false

/-- A bound is a finite number, a field path or an expression. -/
def isBound : Value → Bool
  | .number n => n.isFinite
  | .text s => isFieldPath s || isExpression s
  | _ => false

def storableMessage : String := "must be a number, string, boolean or list of those"

def checkCondition (place : String) (v : Value) : Checked Condition :=
  match v with
  | .record r =>
    let left := r.member "left"
    let right := r.member "right"
    let operator? := Operator.ofValue? (r.member "operator")
    accept (operator?.map (Condition.between left · right))
      (problemIf (!left.isStorable) (place ++ ".left") storableMessage ++
        problemIf operator?.isNone (place ++ ".operator")
          ("must be one of " ++ " ".intercalate (Operator.all.map Operator.text)) ++
        problemIf (!right.isStorable) (place ++ ".right") storableMessage)
  | _ => ⟨none, [problem place "must be an object"]⟩

/-- A path that actions may write to. -/
def isWritablePath (v : Value) : Bool :=
  match v with
  | .text s =>
    match Path.parse? s with
    | some (.event ..) => false
    | some _ => true
    | none => false
  | _ => false

/-- What is wrong with the parameters of an action of a kind. -/
def parameterProblems (kind : ActionKind) (place : String) (ruleIds : List String)
    (r : Record Value) : List String :=
  let below (name : String) := place ++ "." ++ name
  let target :=
    problemIf (!isWritablePath (r.member "target")) (below "target")
      (kind.text ++ " needs a writable field path, got " ++ Json.print (r.member "target"))
  match kind with
  | .set | .add | .recommend =>
    target ++
      problemIf (!(r.member "value").isStorable) (below "value") (kind.text ++ " needs a value")
  | .clamp =>
    let bound (name : String) :=
      problemIf (!isBound (r.member name)) (below name)
        "CLAMP needs a number, field path or expression"
    target ++ bound "minValue" ++ bound "maxValue" ++
      match r.member "minValue", r.member "maxValue" with
      | .number low, .number high =>
        problemIf (low.isFinite && high.isFinite && high.lt low) place
          ("CLAMP minValue " ++ low.toText ++ " is greater than maxValue " ++ high.toText)
      | _, _ => []
  | .triggerRule =>
    problemIf (!isOneOf ruleIds (r.member "ruleId")) (below "ruleId")
      ("TRIGGER_RULE references unknown rule " ++ Json.print (r.member "ruleId"))
  | .spawnEvent =>
    problemIf (!(r.member "eventType").text?.any (Path.isWord ·.toList)) (below "eventType")
        "SPAWN_EVENT needs an event type made of letters, digits, _ or -" ++
      problemIf (!(r.member "eventSeverity").isMissing &&
          !isOneOf Event.severities (r.member "eventSeverity"))
        (below "eventSeverity")
        ("must be one of " ++ ", ".intercalate Event.severities) ++
      problemIf (match r.member "eventPayload" with
          | .missing => false
          | .record payload => !payload.values.all Value.isStorable
          | _ => true)
        (below "eventPayload") "must map keys to values"
  | .log =>
    problemIf (!(r.member "logMessage").text?.any (!·.isEmpty)) (below "logMessage")
        "LOG needs a message" ++
      problemIf (!(r.member "logLevel").isMissing &&
          !isOneOf (LogLevel.every.map LogLevel.text) (r.member "logLevel"))
        (below "logLevel")
        ("must be one of " ++ ", ".intercalate (LogLevel.every.map LogLevel.text)) ++
      problemIf (!(r.member "target").isMissing && !(r.member "target").text?.any isFieldPath)
        (below "target") "must be a field path"

/-- The parameters that an action of a kind keeps, in their order. -/
def parameterNames : ActionKind → List String
  | .set | .add | .recommend => ["target", "value"]
  | .clamp => ["target", "minValue", "maxValue"]
  | .triggerRule => ["ruleId"]
  | .spawnEvent => ["eventType", "eventSeverity", "eventPayload"]
  | .log => ["logMessage", "logLevel", "target"]

/-- A parameter as an action keeps it. Of a payload the name that would tell what to fall
back on is not kept. -/
def keptParameter (name : String) (value : Value) : Value :=
  match name, value with
  | "eventPayload", .record payload => .record (payload.erase Record.baseName)
  | _, value => value

/-- An action with its kind, its metadata and the parameters of its kind, and
nothing else of what the document says of it. -/
def keptAction (kind : ActionKind) (r : Record Value) : Action :=
  let kept := ("metadata" :: parameterNames kind).filterMap fun name =>
    (r.get? name).map fun value => (name, keptParameter name value)
  ⟨kind, .ofList (("type", .text kind.text) :: kept)⟩

def isRecord : Value → Bool
  | .record _ => true
  | _ => false

def checkAction (ruleIds : List String) (place : String) (v : Value) : Checked Action :=
  match v with
  | .record r =>
    match (r.member "type").text?.bind ActionKind.ofText? with
    | some kind =>
      accept (some (keptAction kind r))
        (problemIf (!(r.member "metadata").isMissing && !isRecord (r.member "metadata"))
            (place ++ ".metadata") "must be an object" ++
          parameterProblems kind place ruleIds r)
    | none =>
      ⟨none, [problem (place ++ ".type")
        ("must be one of " ++ ", ".intercalate (ActionKind.every.map ActionKind.text))]⟩
  | _ => ⟨none, [problem place "must be an object"]⟩

/-- A member, or what stands for it where nothing is given. -/
def memberOr (r : Record Value) (name : String) (standard : Value) : Value :=
  (r.member name).given?.getD standard

def checkConditions (place : String) (v : Value) : Checked (List Condition) :=
  match v with
  | .list items =>
    checkEach (fun i => checkCondition (place ++ "[" ++ i.repr ++ "]")) items
  | _ => ⟨none, [problem place "must be a list"]⟩

def checkActions (ruleIds : List String) (place : String) (v : Value) :
    Checked (List Action) :=
  match v with
  | .list (first :: rest) =>
    checkEach (fun i => checkAction ruleIds (place ++ "[" ++ i.repr ++ "]")) (first :: rest)
  | _ => ⟨none, [problem place "must be a non-empty list"]⟩

/-- The strategy that metadata names has to exist. -/
def strategyProblems (place : String) (metadata : Record Value) : List String :=
  match metadata.member "conflictStrategy" with
  | .missing => []
  | found =>
    problemIf (Strategy.ofValue? found).isNone (place ++ ".conflictStrategy")
      ("unknown strategy " ++ Json.print found)

def checkMetadata (place : String) (v : Value) : Checked (Record Value) :=
  match v with
  | .record metadata => accept (some metadata) (strategyProblems place metadata)
  | _ => ⟨none, [problem place "must be an object"]⟩

def checkRule (ruleIds : List String) (index : Nat) (v : Value) : Checked Rule :=
  let place := "rules[" ++ index.repr ++ "]"
  match v with
  | .record r =>
    let id? := (r.member "id").text?.filter (!·.isEmpty)
    let label := match id? with
      | some id => place ++ " (" ++ id ++ ")"
      | none => place
    let priority? := (r.member "priority").number?.filter (·.isFinite)
    let logic? := (memberOr r "logic" (.text Logic.all.text)).text?.bind Logic.ofText?
    let conditions := checkConditions (label ++ ".conditions") (memberOr r "conditions" (.list []))
    let actions := checkActions ruleIds (label ++ ".action") (r.member "action")
    let template? := (memberOr r "explanationTemplate" (.text "")).text?
    let metadata := checkMetadata (label ++ ".metadata") (memberOr r "metadata" (.record ∅))
    accept
      (do return {
        id := ← id?
        priority := .number (← priority?)
        conditions := ← conditions.value
        logic := .text (← logic?).text
        actions := ← actions.value
        template := ← template?
        metadata := ← metadata.value })
      (problemIf id?.isNone (place ++ ".id") "must be a non-empty string" ++
        problemIf priority?.isNone (label ++ ".priority") "must be a number" ++
        problemIf logic?.isNone (label ++ ".logic") "must be AND or OR" ++
        conditions.problems ++ actions.problems ++
        problemIf template?.isNone (label ++ ".explanationTemplate") "must be a string" ++
        metadata.problems)
  | _ => ⟨none, [problem place "must be an object"]⟩

/-- A list of rule ids in a policy, which may be left out. -/
def checkListed (r : Record Value) (name : String) : Checked (List String) :=
  match r.member name with
  | .missing => ⟨some [], []⟩
  | v =>
    match v.texts? with
    | some ids => ⟨some ids, []⟩
    | none => ⟨none, [problem ("conflictPolicy." ++ name) "must be a list of rule ids"]⟩

/-- The strategy of a policy, which may be left out. -/
def checkStrategy (r : Record Value) : Checked Strategy :=
  match r.member "strategy" with
  | .missing => ⟨some Policy.standard.strategy, []⟩
  | v =>
    match Strategy.ofValue? v with
    | some strategy => ⟨some strategy, []⟩
    | none =>
      ⟨none, [problem "conflictPolicy.strategy" ("unknown strategy " ++ Json.print v)]⟩

/-- The conflict policy of a document; parts that are left out or wrong are as
in the standard policy. -/
def checkPolicy (v : Value) : Policy × List String :=
  match v with
  | .missing => (Policy.standard, [])
  | .record r =>
    let strategy := checkStrategy r
    let review := checkListed r "manualReviewRules"
    let merge := checkListed r "mergeRules"
    ({ strategy := strategy.value.getD Policy.standard.strategy
       manualReviewRules := review.value.getD []
       mergeRules := merge.value.getD [] },
      strategy.problems ++ review.problems ++ merge.problems)
  | _ => (Policy.standard, [problem "conflictPolicy" "must be an object"])

/-- The ids that the rules of a document declare. -/
def declaredIds (rules : List Value) : List String :=
  rules.filterMap fun rule => rule.record?.bind fun r => (r.member "id").text?

/-- The ids that occur in a list after an equal one. -/
def repeated : List String → List String → List String
  | _, [] => []
  | seen, id :: rest =>
    if seen.contains id then id :: repeated seen rest else repeated (id :: seen) rest

end Document

open Document in
/-- Reads a document as a rule set; `source` is what the report calls it. -/
def RuleSet.ofDocument (raw : Value) (source : String) : Except Failure RuleSet :=
  match raw.record?.bind fun r => (r.member "rules").list?.map fun rules => (r, rules) with
  | none => .error (.document (.noRuleList source))
  | some (r, rules) =>
    let ids := declaredIds rules
    let (policy, policyProblems) := checkPolicy (r.member "conflictPolicy")
    let checked := checkEach (checkRule ids) rules
    let problems :=
      (repeated [] ids).map (fun id => problem ("rules (" ++ id ++ ")") "duplicate rule id") ++
      policyProblems ++
      ((policy.manualReviewRules ++ policy.mergeRules).filter (!ids.contains ·)).map
        (fun id => problem "conflictPolicy" ("references unknown rule '" ++ id ++ "'")) ++
      checked.problems
    match checked.value, problems with
    | some rules, [] => .ok ⟨rules, policy⟩
    | _, problems => .error (.document (.problems source problems))

end Harbormaster
