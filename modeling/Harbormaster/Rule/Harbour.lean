import Harbormaster.Rule.Document
import Harbormaster.World.Document

/-!
The rules of the harbour: the rule set that is used where no other is named, as
the document in which it is kept.
-/

namespace Harbormaster.Harbour

def condition (left operator : String) (right : Value) : Value :=
  .object [("left", .text left), ("operator", .text operator), ("right", right)]

/-- An action of a kind with its parameters. -/
def action (kind : ActionKind) (parameters : List (String × Value)) : Value :=
  .object (("type", .text kind.text) :: parameters)

def rule (id : String) (priority : Number) (logic : Logic) (conditions actions : List Value)
    (template category : String) (tags : List String) : Value :=
  .object
    [("id", .text id),
      ("priority", .number priority),
      ("logic", .text logic.text),
      ("conditions", .list conditions),
      ("action", .list actions),
      ("explanationTemplate", .text template),
      ("metadata", .object [("category", .text category), ("tags", .ofTexts tags)])]

def engineFailureDetection : Value :=
  rule "engine_failure_detection" 10 .all
    [condition "global_metrics.engine_status" "==" 0]
    [action .spawnEvent
        [("eventType", .text "engine_failure"),
          ("eventSeverity", .text "critical"),
          ("eventPayload", .object [("speed", .text "agents.tugboat.speed")])],
      action .set
        [("target", .text "agents.tugboat.speed"),
          ("value", .text "\x7b\x7b agents.tugboat.speed / 2 \x7d\x7d")],
      action .triggerRule [("ruleId", .text "emergency_anchor")]]
    ("Engine failure detected: the tugboat is coasting down to " ++
      "\x7b\x7bagents.tugboat.speed\x7d\x7d knots and the emergency anchor procedure has " ++
      "started.")
    "emergency" ["engine", "chaining"]

def dockingFinalStop : Value :=
  rule "docking_final_stop" 9 .all
    [condition "environment.zone" "==" (.text "docking_zone"),
      condition "global_metrics.distance_to_berth" "<" 5]
    [action .set [("target", .text "agents.tugboat.speed"), ("value", 0)]]
    ("Only \x7b\x7bglobal_metrics.distance_to_berth\x7d\x7d m from the berth, so the tugboat " ++
      "stops completely.")
    "docking" ["speed"]

def lowVisibilitySpeedReduction : Value :=
  rule "low_visibility_speed_reduction" 8 .all
    [condition "environment.visibility" "<" 0.5]
    [action .clamp [("target", .text "agents.tugboat.speed"), ("minValue", 0), ("maxValue", 5)],
      action .spawnEvent
        [("eventType", .text "fog_detected"),
          ("eventSeverity", .text "warning"),
          ("eventPayload", .object [("visibility", .text "environment.visibility")])]]
    ("Visibility dropped to \x7b\x7benvironment.visibility\x7d\x7d km, so the tugboat speed " ++
      "was limited to \x7b\x7bagents.tugboat.speed\x7d\x7d knots.")
    "safety" ["fog", "speed"]

def fogEventResponse : Value :=
  rule "fog_event_response" 7 .all
    [condition "events.fog_detected" "==" (.boolean true)]
    [action .log
        [("logLevel", .text "warning"),
          ("logMessage", .text "Fog detected: sounding the fog horn"),
          ("target", .text "environment.visibility")],
      action .triggerRule [("ruleId", .text "request_harbour_guidance")]]
    ("Fog was reported by another rule, so the crew sounds the fog horn and asks the harbour " ++
      "for guidance.")
    "safety" ["fog", "chaining"]

def dockingApproachSpeed : Value :=
  rule "docking_approach_speed" 6 .all
    [condition "environment.zone" "==" (.text "docking_zone"),
      condition "global_metrics.distance_to_berth" "<" 50]
    [action .clamp [("target", .text "agents.tugboat.speed"), ("minValue", 0), ("maxValue", 2)]]
    ("Approaching the berth (\x7b\x7bglobal_metrics.distance_to_berth\x7d\x7d m), so the speed " ++
      "is held at or below 2 knots.")
    "docking" ["speed"]

def dockingHeadingAlignment : Value :=
  rule "docking_heading_alignment" 5 .all
    [condition "environment.zone" "==" (.text "docking_zone"),
      condition "global_metrics.heading_error" ">" 10]
    [action .recommend
        [("target", .text "agents.tugboat.heading"),
          ("value", .text "environment.berth_heading")],
      action .log
        [("logLevel", .text "info"),
          ("logMessage", .text "Heading misaligned with the berth"),
          ("target", .text "global_metrics.heading_error")]]
    ("The tugboat is \x7b\x7bglobal_metrics.heading_error\x7d\x7d degrees off the berth; " ++
      "steering to \x7b\x7bagents.tugboat.heading\x7d\x7d degrees is recommended.")
    "docking" ["heading", "advisory"]

def collisionRiskAssessment : Value :=
  rule "collision_risk_assessment" 4 .all
    [condition "global_metrics.tugboat_cargo_distance" "<" 20]
    [action .set [("target", .text "global_metrics.collision_risk"), ("value", 1)],
      action .spawnEvent
        [("eventType", .text "collision_risk"),
          ("eventSeverity", .text "critical"),
          ("eventPayload", .object [("distance", .text "global_metrics.tugboat_cargo_distance")])]]
    ("The tugboat is only \x7b\x7bglobal_metrics.tugboat_cargo_distance\x7d\x7d m from the " ++
      "cargo ship, so a collision risk was raised.")
    "safety" ["collision"]

def requestHarbourGuidance : Value :=
  rule "request_harbour_guidance" 3 .any
    [condition "environment.zone" "in" (.list [.text "harbour_entry", .text "no_wake_zone"]),
      condition "events.collision_risk" "==" (.boolean true)]
    [action .set [("target", .text "global_metrics.guidance_requested"), ("value", 1)]]
    "Harbour guidance was requested while in zone \x7b\x7benvironment.zone\x7d\x7d."
    "communication" ["guidance"]

def emergencyAnchor : Value :=
  rule "emergency_anchor" 1 .all
    [condition "events.engine_failure" "==" (.boolean true)]
    [action .set [("target", .text "global_metrics.anchor_deployed"), ("value", 1)],
      action .log
        [("logLevel", .text "error"),
          ("logMessage", .text "Emergency anchor deployed"),
          ("target", .text "global_metrics.anchor_deployed")]]
    "Triggered by \x7b\x7btriggered_by\x7d\x7d: the emergency anchor was deployed."
    "emergency" ["anchor", "chaining"]

/-- The document of the rule set, its rules by descending priority. -/
def document : Value :=
  .object
    [("conflictPolicy", .object
        [("strategy", .text Strategy.priority.text),
          ("manualReviewRules", .list []),
          ("mergeRules", .list [])]),
      ("rules", .list
        [engineFailureDetection,
          dockingFinalStop,
          lowVisibilitySpeedReduction,
          fogEventResponse,
          dockingApproachSpeed,
          dockingHeadingAlignment,
          collisionRiskAssessment,
          requestHarbourGuidance,
          emergencyAnchor])]

end Harbormaster.Harbour
