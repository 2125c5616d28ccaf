import Harbormaster.Failure
import Harbormaster.Notice
import Harbormaster.World.Basic

/-!
The committed history: an initial world and the snapshots of the ticks since,
numbered without gaps. What is committed is kept as a document holds it, and
nothing that is committed changes afterwards.
-/

namespace Harbormaster

/-- Tick records that can be kept in a history: documents have a way to write them, so that
keeping one does not fail. -/
class Storable (ρ : Type) where
  /-- The record as a document holds it. -/
  stored : ρ → ρ

/-- A committed tick: its number, its record and the world after it. -/
structure Commit (ρ : Type) where
  tick : Number
  record : ρ
  state : World

structure Store (ρ : Type) where
  initial : World
  /-- The committed ticks, the first one first. -/
  commits : List (Commit ρ)

namespace World

/-- The first field of an agent that the world may not hold. -/
def fieldFault? (agent : String) (fields : List (String × Value)) : Option StoreFault :=
  fields.findSome? fun f =>
    if f.2.isStorable then none else some (.agentFieldNotStorable agent f.1)

def agentFault? (key : String) (a : Agent) : Option StoreFault :=
  if a.id.text? = some key then fieldFault? key a.fields.entries
  else some (.agentIdMismatch key a.id)

def metricFault? (name : String) (v : Value) : Option StoreFault :=
  match v with
  | .number _ => none
  | _ => some (.metricNotNumeric name)

def timeFault? (w : World) : Option StoreFault :=
  match w.timeStep.number?.bind Number.toInt? with
  | some n => if n < 0 then some (.invalidTimeStep w.timeStep) else none
  | none => some (.invalidTimeStep w.timeStep)

/-- The first reason why a world cannot start a history. -/
def fault? (w : World) : Option StoreFault :=
  (w.agents.entries.findSome? fun a => agentFault? a.1 a.2).or
    ((w.metrics.entries.findSome? fun m => metricFault? m.1 m.2).or w.timeFault?)

end World

namespace Store

variable {ρ : Type}

/-- A history that begins with the given world. -/
def ofWorld (w : World) : Except Failure (Store ρ) :=
  match w.fault? with
  | some fault => .error (.store fault)
  | none => .ok ⟨w.stored, []⟩

/-- The world committed last. -/
def current (s : Store ρ) : World :=
  match s.commits.getLast? with
  | some commit => commit.state
  | none => s.initial

/-- The number of the tick that can be committed next. -/
def nextTick (s : Store ρ) : Number := .ofNat s.commits.length + s.initial.time

/-- Commits a tick; only the next one is accepted. -/
def commit [Storable ρ] (s : Store ρ) (tick : Value) (record : ρ) (w : World) :
    Except Failure (Store ρ × Commit ρ × Notice) :=
  let next := s.nextTick
  if tick.sameItem (.number next) then
    let commit : Commit ρ := ⟨next, Storable.stored record, w.stored⟩
    let commits := s.commits ++ [commit]
    .ok ({ s with commits }, commit,
      .debug ("StateStore: Committed tick " ++ next.toText ++ " (" ++ commits.length.repr ++
        " snapshot(s) in history)."))
  else .error (.store (.unexpectedTick next tick))

/-- The committed tick of a number. -/
def commit? (s : Store ρ) (tick : Number) : Option (Commit ρ) :=
  match (tick - s.initial.time).toInt? with
  | some n => if n < 0 then none else s.commits[n.toNat]?
  | none => none

end Store

end Harbormaster
