import Harbormaster.Engine.Basic
import Harbormaster.Scenario

/-!
Sessions side by side. Each session runs a scenario in an engine of its own;
sessions share the rule set and nothing else.
-/

namespace Harbormaster

structure Session where
  id : String
  scenario : Scenario
  engine : Engine

structure Sessions where
  rules : RuleSet
  options : EngineOptions
  /-- The supply of identifiers. -/
  identifier : Nat → String
  /-- How many identifiers have been handed out. -/
  issued : Nat
  /-- The active sessions by identifier. -/
  active : Record Session

namespace Sessions

def new (rules : RuleSet) (options : EngineOptions) (identifier : Nat → String) : Sessions :=
  ⟨rules, options, identifier, 0, ∅⟩

/-- An engine at the start of a scenario. -/
def start (s : Sessions) (scenario : Scenario) : Except Failure (Engine × Notice) :=
  Engine.new scenario.world s.rules s.options

def put (s : Sessions) (session : Session) : Sessions :=
  { s with active := s.active.set session.id session }

/-- Starts a session on the scenario of a name. -/
def create (s : Sessions) (name : Value) : Except Failure Session × Sessions × List Notice :=
  match Scenario.ofValue? name with
  | none => (.error (.run (.unknownScenario name Scenario.names)), s, [])
  | some scenario =>
    let id := s.identifier s.issued
    let s := { s with issued := s.issued + 1 }
    match s.start scenario with
    | .error failure => (.error failure, s, [])
    | .ok (engine, notice) =>
      let session : Session := ⟨id, scenario, engine⟩
      (.ok session, s.put session,
        [notice, .debug ("SessionManager: Created session " ++ id ++ " (scenario=" ++
          scenario.name ++ ").")])

def get? (s : Sessions) (id : String) : Option Session := s.active.get? id

def require (s : Sessions) (id : String) : Except Failure Session :=
  match s.get? id with
  | some session => .ok session
  | none => .error (.run (.unknownSession id))

/-- Takes a session back to the start of its scenario. -/
def reset (s : Sessions) (id : String) : Except Failure Session × Sessions × List Notice :=
  match s.require id with
  | .error failure => (.error failure, s, [])
  | .ok session =>
    match s.start session.scenario with
    | .error failure => (.error failure, s, [])
    | .ok (engine, notice) =>
      let session := { session with engine }
      (.ok session, s.put session,
        [notice, .debug ("SessionManager: Reset session " ++ id ++ ".")])

/-- Ends a session; tells whether it was there. -/
def delete (s : Sessions) (id : String) : Bool × Sessions :=
  (s.active.contains id, { s with active := s.active.erase id })

def activeCount (s : Sessions) : Nat := s.active.size

end Sessions

end Harbormaster
