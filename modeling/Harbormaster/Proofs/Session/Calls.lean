import Harbormaster.Proofs.Engine.Restoring
import Harbormaster.Proofs.Value.Solid
import Harbormaster.Session.Basic

/-!
Sessions in use: the calls that can be made on a table of sessions, one after another, and
the steps that they make. Every call concerns one session, or none if it asks for a
scenario that there is not. What is kept by every call is shown here: the sessions stand
under their own identifiers, these have been handed out before, and each session could be
started once more.
-/

namespace Harbormaster

namespace Engine

inductive Request where
  | call (call : Call)
  | run (count : Nat)
  | rules
  | pending
  | state
  | history
  | snapshot (tick : Number)

inductive Answer where
  | replied (reply : Reply)
  | ran (outcome : Except Failure (List Snapshot))
  | rules (rules : List Rule)
  | pending (count : Nat)
  | state (world : World)
  | history (commits : List Snapshot)
  | snapshot (found : Option Snapshot)

def notices (e : Engine) : Call → List Notice
  | .submit _ | .submitWrite .. => []
  | .consume eventType => (e.consume eventType).2.2
  | .tick => e.tick.notices

def perform (e : Engine) : Request → Answer × Engine × List Notice
  | .call c => (.replied (e.reply c), e.call c, e.notices c)
  | .run count =>
    let (engine, outcome, notices) := run count e
    (.ran outcome, engine, notices)
  | .rules => (.rules e.rules, e, [])
  | .pending => (.pending e.pending.length, e, [])
  | .state => (.state e.state, e, [])
  | .history => (.history e.history, e, [])
  | .snapshot tick => (.snapshot (e.store.commit? tick), e, [])

end Engine

namespace Sessions

inductive Call where
  | create (name : Value)
  | get (id : String)
  | require (id : String)
  | reset (id : String)
  | delete (id : String)
  | engine (id : String) (request : Engine.Request)

inductive Answer where
  | created (outcome : Except Failure Session)
  | found (session : Option Session)
  | required (outcome : Except Failure Session)
  | reset (outcome : Except Failure Session)
  | deleted (found : Bool)
  | engine (outcome : Except Failure Engine.Answer)

def pass (s : Sessions) (id : String) (request : Engine.Request) :
    Except Failure Engine.Answer × Sessions × List Notice :=
  match s.require id with
  | .error failure => (.error failure, s, [])
  | .ok session =>
    let (answer, engine, notices) := session.engine.perform request
    (.ok answer, s.put { session with engine }, notices)

def perform (s : Sessions) : Call → Answer × Sessions × List Notice
  | .create name =>
    let (outcome, s, notices) := s.create name
    (.created outcome, s, notices)
  | .get id => (.found (s.get? id), s, [])
  | .require id => (.required (s.require id), s, [])
  | .reset id =>
    let (outcome, s, notices) := s.reset id
    (.reset outcome, s, notices)
  | .delete id =>
    let (found, s) := s.delete id
    (.deleted found, s, [])
  | .engine id request =>
    let (outcome, s, notices) := s.pass id request
    (.engine outcome, s, notices)

/-- The session that a call concerns; one that is to be created is named by the identifier
that it takes from the supply. -/
def owner (s : Sessions) : Call → Option String
  | .create name => (Scenario.ofValue? name).map fun _ => s.identifier s.issued
  | .get id | .require id | .reset id | .delete id | .engine id _ => some id

structure Step where
  owner : Option String
  call : Call
  answer : Answer
  notices : List Notice

def step (s : Sessions) (c : Call) : Step :=
  ⟨s.owner c, c, (s.perform c).1, (s.perform c).2.2⟩

/-- The sessions after a call. -/
def call (s : Sessions) (c : Call) : Sessions := (s.perform c).2.1

def after (s : Sessions) (calls : List Call) : Sessions := calls.foldl call s

/-- The steps that calls make one after the other. -/
def steps : Sessions → List Call → List Step
  | _, [] => []
  | s, c :: rest => s.step c :: steps (s.call c) rest

def own (id : String) (steps : List Step) : List Step := steps.filter (·.owner = some id)

/-- What calls take for granted: sessions stand under their own identifiers, which have been
handed out, and each could be started once more. -/
structure Orderly (s : Sessions) : Prop where
  keyed : ∀ id session, s.get? id = some session → session.id = id
  issued : ∀ id session, s.get? id = some session → ∃ k < s.issued, s.identifier k = id
  startable : ∀ id session, s.get? id = some session →
    ∃ engine notice, s.start session.scenario = .ok (engine, notice)
  distinct : s.active.Distinct

inductive Moves (s : Sessions) : Option String → Sessions → Prop where
  | still {owner : Option String} {issued : Nat} (hissued : s.issued ≤ issued) :
      Moves s owner { s with issued }
  | put {issued : Nat} {session : Session} (hissued : s.issued ≤ issued)
      (hid : ∃ k < issued, s.identifier k = session.id)
      (hstart : ∃ engine notice, s.start session.scenario = .ok (engine, notice)) :
      Moves s (some session.id) { s with issued, active := s.active.set session.id session }
  | erased (id : String) : Moves s (some id) { s with active := s.active.erase id }

variable {s t : Sessions} {id : String} {session : Session} {owner : Option String}

section Functions

variable {name : Value} {scenario : Scenario} {engine : Engine} {notice : Notice}
  {failure : Failure}

theorem create_of_unknown (hname : Scenario.ofValue? name = none) :
    s.create name = (.error (.run (.unknownScenario name Scenario.names)), s, []) := by
  rw [create, hname]

theorem create_of_failure (hname : Scenario.ofValue? name = some scenario)
    (hstart : s.start scenario = .error failure) :
    s.create name = (.error failure, { s with issued := s.issued + 1 }, []) := by
  have hagain : ({ s with issued := s.issued + 1 } : Sessions).start scenario = .error failure :=
    hstart
  rw [create, hname]
  dsimp only
  rw [hagain]

theorem create_of_start (hname : Scenario.ofValue? name = some scenario)
    (hstart : s.start scenario = .ok (engine, notice)) :
    s.create name =
      (.ok ⟨s.identifier s.issued, scenario, engine⟩,
        { s with
          issued := s.issued + 1
          active := s.active.set (s.identifier s.issued)
            ⟨s.identifier s.issued, scenario, engine⟩ },
        [notice, .debug ("SessionManager: Created session " ++ s.identifier s.issued ++
          " (scenario=" ++ scenario.name ++ ").")]) := by
  have hagain : ({ s with issued := s.issued + 1 } : Sessions).start scenario =
      .ok (engine, notice) := hstart
  rw [create, hname]
  dsimp only
  rw [hagain]
  rfl

theorem require_of_missing (h : s.get? id = none) :
    s.require id = .error (.run (.unknownSession id)) := by
  rw [require, h]

theorem require_of_get? (h : s.get? id = some session) : s.require id = .ok session := by
  rw [require, h]

theorem reset_of_missing (h : s.get? id = none) :
    s.reset id = (.error (.run (.unknownSession id)), s, []) := by
  rw [reset, require_of_missing h]

theorem reset_of_start (h : s.get? id = some session)
    (hstart : s.start session.scenario = .ok (engine, notice)) :
    s.reset id =
      (.ok { session with engine }, s.put { session with engine },
        [notice, .debug ("SessionManager: Reset session " ++ id ++ ".")]) := by
  rw [reset, require_of_get? h]
  dsimp only
  rw [hstart]

theorem pass_of_missing (h : s.get? id = none) (request : Engine.Request) :
    s.pass id request = (.error (.run (.unknownSession id)), s, []) := by
  rw [pass, require_of_missing h]

theorem pass_of_get? (h : s.get? id = some session) (request : Engine.Request) :
    s.pass id request =
      (.ok (session.engine.perform request).1,
        s.put { session with engine := (session.engine.perform request).2.1 },
        (session.engine.perform request).2.2) := by
  rw [pass, require_of_get? h]

end Functions

section Moves

theorem Moves.rules (h : Moves s owner t) : t.rules = s.rules := by
  cases h with
  | still | put | erased => rfl

theorem Moves.options (h : Moves s owner t) : t.options = s.options := by
  cases h with
  | still | put | erased => rfl

theorem Moves.identifier (h : Moves s owner t) : t.identifier = s.identifier := by
  cases h with
  | still | put | erased => rfl

theorem Moves.issued (h : Moves s owner t) : s.issued ≤ t.issued := by
  cases h with
  | still hissued | put hissued => exact hissued
  | erased => exact Nat.le_refl _

/-- No other session is touched. -/
theorem Moves.get? (h : Moves s owner t) (hother : owner ≠ some id) : t.get? id = s.get? id := by
  cases h with
  | still => rfl
  | put =>
    unfold Sessions.get?
    rw [Record.get?_set, if_neg]
    rintro rfl
    exact hother rfl
  | erased =>
    unfold Sessions.get?
    rw [Record.get?_erase, if_neg]
    rintro rfl
    exact hother rfl

theorem start_congr (hrules : t.rules = s.rules) (hoptions : t.options = s.options)
    (scenario : Scenario) : t.start scenario = s.start scenario := by
  unfold start
  rw [hrules, hoptions]

theorem Moves.orderly (h : Moves s owner t) (hs : Orderly s) : Orderly t := by
  have hkept : ∀ id session, s.get? id = some session → ∃ k < t.issued, t.identifier k = id := by
    intro id session hsession
    obtain ⟨k, hk, hid⟩ := hs.issued id session hsession
    exact ⟨k, Nat.lt_of_lt_of_le hk h.issued, h.identifier ▸ hid⟩
  cases h with
  | still => exact ⟨hs.keyed, hkept, hs.startable, hs.distinct⟩
  | put hissued hid hstart =>
    refine ⟨?_, ?_, ?_, hs.distinct.set _ _⟩
    all_goals
      intro id found hfound
      unfold Sessions.get? at hfound
      rw [Record.get?_set] at hfound
      split at hfound
    · rename_i hsame
      cases hfound
      exact hsame.symm
    · exact hs.keyed id found hfound
    · rename_i hsame
      subst hsame
      exact hid
    · exact hkept id found hfound
    · cases hfound
      exact hstart
    · exact hs.startable id found hfound
  | erased gone =>
    have hbefore : ∀ id found, (s.active.erase gone).get? id = some found →
        s.get? id = some found := by
      intro id found hfound
      rw [Record.get?_erase] at hfound
      split at hfound
      · cases hfound
      · exact hfound
    exact ⟨fun id found hfound => hs.keyed id found (hbefore id found hfound),
      fun id found hfound => hkept id found (hbefore id found hfound),
      fun id found hfound => hs.startable id found (hbefore id found hfound),
      hs.distinct.erase gone⟩

/-- What a call does: it changes nothing but the session that it concerns. -/
theorem moves_call (h : Orderly s) (c : Call) : Moves s (s.owner c) (s.call c) := by
  cases c with
  | create name =>
    cases hname : Scenario.ofValue? name with
    | none =>
      simp only [call, perform, create_of_unknown hname]
      exact .still (Nat.le_refl _)
    | some scenario =>
      simp only [owner, hname, Option.map_some]
      cases hstart : s.start scenario with
      | error failure =>
        simp only [call, perform, create_of_failure hname hstart]
        exact .still (Nat.le_succ _)
      | ok started =>
        obtain ⟨engine, notice⟩ := started
        simp only [call, perform, create_of_start hname hstart]
        exact @Moves.put s (s.issued + 1) ⟨s.identifier s.issued, scenario, engine⟩
          (Nat.le_succ _) ⟨s.issued, Nat.lt_succ_self _, rfl⟩ ⟨engine, notice, hstart⟩
  | get id | require id => exact .still (Nat.le_refl _)
  | delete id => exact .erased id
  | reset id =>
    cases hsession : s.get? id with
    | none =>
      simp only [call, perform, reset_of_missing hsession]
      exact .still (Nat.le_refl _)
    | some session =>
      obtain ⟨engine, notice, hstart⟩ := h.startable id session hsession
      obtain rfl := h.keyed id session hsession
      simp only [call, perform, reset_of_start hsession hstart]
      exact @Moves.put s s.issued { session with engine } (Nat.le_refl _)
        (h.issued _ _ hsession) ⟨engine, notice, hstart⟩
  | engine id request =>
    cases hsession : s.get? id with
    | none =>
      simp only [call, perform, pass_of_missing hsession]
      exact .still (Nat.le_refl _)
    | some session =>
      obtain rfl := h.keyed id session hsession
      have hstart := h.startable _ _ hsession
      simp only [call, perform, pass_of_get? hsession]
      exact @Moves.put s s.issued { session with engine := (session.engine.perform request).2.1 }
        (Nat.le_refl _) (h.issued _ _ hsession) hstart

end Moves

theorem orderly_new (rules : RuleSet) (options : EngineOptions) (identifier : Nat → String) :
    Orderly (new rules options identifier) :=
  ⟨nofun, nofun, nofun, List.nodup_nil⟩

theorem orderly_call (h : Orderly s) (c : Call) : Orderly (s.call c) := (moves_call h c).orderly h

theorem orderly_after (h : Orderly s) (calls : List Call) : Orderly (s.after calls) := by
  induction calls generalizing s with
  | nil => exact h
  | cons c rest ih => exact ih (orderly_call h c)

/-- The rules, the options and the supply of identifiers stay what they are. -/
theorem ground_after (h : Orderly s) (calls : List Call) :
    (s.after calls).rules = s.rules ∧ (s.after calls).options = s.options ∧
      (s.after calls).identifier = s.identifier := by
  induction calls generalizing s with
  | nil => exact ⟨rfl, rfl, rfl⟩
  | cons c rest ih =>
    have hmoves := moves_call h c
    obtain ⟨hrules, hoptions, hidentifier⟩ := ih (orderly_call h c)
    exact ⟨hrules.trans hmoves.rules, hoptions.trans hmoves.options,
      hidentifier.trans hmoves.identifier⟩

end Sessions

end Harbormaster
