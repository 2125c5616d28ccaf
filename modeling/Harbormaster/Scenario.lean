import Harbormaster.World.Basic

/-!
The scenarios: worlds in which a run can start. A tugboat escorts a cargo ship
into the harbour.
-/

namespace Harbormaster

inductive Scenario where
  | standard | fog | docking | emergency
  deriving DecidableEq, Repr

namespace Scenario

def name : Scenario → String
  | standard => "default"
  | fog => "fog"
  | docking => "docking"
  | emergency => "emergency"

def all : List Scenario := [standard, fog, docking, emergency]

def names : List String := all.map name

def ofName? (s : String) : Option Scenario := all.find? (·.name = s)

def ofValue? (v : Value) : Option Scenario := v.text?.bind ofName?

def ship (id : String) (position speed : Number) : Agent :=
  ⟨id, .ofList [("type", .text id), ("position_x", position), ("position_y", 0),
    ("speed", speed), ("heading", 90)], ∅⟩

/-- Open water: the tugboat follows the cargo ship at a distance of 50 m. -/
def openWater : World :=
  { agents := .ofList [("tugboat", ship "tugboat" 0 8), ("cargo_ship", ship "cargo_ship" 50 6)]
    environment := .ofList [("wind_speed", 10), ("wind_direction", 45), ("visibility", 1.5),
      ("zone", "open_water"), ("berth_heading", 0)]
    metrics := .ofList [("tugboat_cargo_distance", 50), ("collision_risk", 0),
      ("anchor_deployed", 0), ("engine_status", 1), ("guidance_requested", 0),
      ("heading_error", 0), ("distance_to_berth", 500)]
    timeStep := 0
    events := ∅
    others := ∅ }

/-- Sets fields of the tugboat. -/
def steer (w : World) (fields : List (String × Value)) : World :=
  { w with agents := w.agents.modify "tugboat" fun a =>
    { a with fields := a.fields.override (.ofList fields) } }

/-- The world in which a scenario starts. -/
def world : Scenario → World
  | standard => openWater
  | fog =>
    { openWater with
      environment := openWater.environment.override
        (.ofList [("visibility", 0.2), ("zone", "harbour_entry")]) }
  | docking =>
    steer
      { openWater with
        environment := openWater.environment.set "zone" "docking_zone"
        metrics := openWater.metrics.override
          (.ofList [("heading_error", 25), ("distance_to_berth", 3)]) }
      [("speed", 4), ("heading", 65)]
  | emergency =>
    steer { openWater with metrics := openWater.metrics.set "engine_status" 0 } [("speed", 10)]

end Scenario

end Harbormaster
