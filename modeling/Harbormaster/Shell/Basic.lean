import Harbormaster.Input.Spec
import Harbormaster.Report.History
import Harbormaster.Report.Lines
import Harbormaster.Session.Basic
import Harbormaster.Shell.Words

/-!
The interactive shell over one session. Commands queue inputs, run ticks, show
the committed state and its explanations, and replay the history; only `tick`,
`input`, `set` and `reset` change the session. What the shell says is handed back
as plain notices.
-/

namespace Harbormaster

structure Shell where
  sessions : Sessions
  /-- The session that the shell works on. -/
  session : Session
  cursor : Option Cursor

/-- The outcome of a command: whether the shell goes on, the shell after it, and
what it said. -/
structure CommandOutcome where
  result : Except Failure Bool
  shell : Shell
  notices : List Notice

namespace Shell

def help : List String :=
  ["Available commands:",
    "  tick [n]              run one or n ticks",
    "  input <type[:k=v,..]> queue a named input, e.g. input adjust_speed:speed=3",
    "  set <path> <value>    queue a direct write, e.g. set agents.tugboat.speed 8",
    "  state [path]          show the committed state or one value",
    "  explain [rule_id]     explain the last tick, or one rule in it",
    "  history               list committed ticks",
    "  rewind <tick>         replay a committed tick without re-running it",
    "  back | forward        step the replay cursor",
    "  reset                 restart the scenario",
    "  exit"]

/-- The shell with another engine in its session. -/
def withEngine (s : Shell) (engine : Engine) : Shell :=
  let session := { s.session with engine }
  { s with session, sessions := s.sessions.put session }

/-- Says lines and goes on. -/
def say (s : Shell) (lines : List String) : CommandOutcome :=
  ⟨.ok true, s, lines.map Notice.plain⟩

def fail (s : Shell) (failure : Failure) : CommandOutcome := ⟨.error failure, s, []⟩

/-- A number of ticks, one unless it is given. -/
def tickCount? (argument : Option String) : Option Nat :=
  match argument with
  | none => some 1
  | some text =>
    match (Number.ofText text).toInt? with
    | some (.ofNat (n + 1)) => some (n + 1)
    | _ => none

def tick (s : Shell) (argument : Option String) : CommandOutcome :=
  match tickCount? argument with
  | none =>
    s.say ["Tick count must be a positive integer, got '" ++ argument.getD "undefined" ++ "'."]
  | some count =>
    let (engine, result, notices) := s.session.engine.run count
    let s := s.withEngine engine
    match result with
    | .error failure => ⟨.error failure, s, notices⟩
    | .ok snapshots =>
      ⟨.ok true, s, notices ++ (snapshots.flatMap (·.lines false)).map Notice.plain⟩

def input (s : Shell) (argument : Option String) : CommandOutcome :=
  match argument.getD "" with
  | "" => s.say ["Usage: input <type[:key=value,...]>"]
  | spec =>
    match Input.ofSpec spec with
    | .error failure => s.fail failure
    | .ok input =>
      (s.withEngine (s.session.engine.submit input)).say
        ["Queued " ++ input.describe ++ " for the next tick."]

def set (s : Shell) : List String → CommandOutcome
  | path :: text :: _ =>
    let value := readLiteral text
    (s.withEngine (s.session.engine.submitWrite path value)).say
      ["Queued " ++ path ++ " = " ++ value.trace ++ " for the next tick."]
  | _ => s.say ["Usage: set <path> <value>"]

def state (s : Shell) (argument : Option String) : CommandOutcome :=
  match argument.getD "" with
  | "" => s.say [Json.printIndented s.session.engine.state.toValue]
  | path =>
    match s.session.engine.state.read path with
    | .error failure => s.fail failure
    | .ok value => s.say [path ++ " = " ++ value.trace]

/-- The lines that explain one rule. -/
def explanationLines (e : Explanation) : List String :=
  let via := if e.triggeredBy.counts then " via " ++ e.triggeredBy.plainText else ""
  [e.ruleId ++ " (priority " ++ e.priority.plainText ++ via ++ "): " ++ e.message] ++
    e.conditionsEvaluated.map (fun c => "  if   " ++ c.message) ++
    e.actionsApplied.map (fun a => "  then " ++ a.message) ++
    e.sideEffects.map (fun text => "  note " ++ text)

def explain (s : Shell) (argument : Option String) : CommandOutcome :=
  match s.session.engine.history.getLast? with
  | none => s.say ["No ticks have run yet."]
  | some snapshot =>
    let explanations := match argument.getD "" with
      | "" => snapshot.record.explanations
      | rule => snapshot.record.explanations.filter (·.ruleId = rule)
    if explanations.isEmpty then
      s.say ["Rule '" ++ argument.getD "undefined" ++ "' was not evaluated in tick " ++
        snapshot.tick.toText ++ "."]
    else s.say (explanations.flatMap explanationLines)

def historyLine (s : Snapshot) : String :=
  "tick " ++ s.tick.toText ++ ": " ++ s.record.stats.rulesTriggered.toText ++ "/" ++
    s.record.stats.rulesEvaluated.toText ++ " rule(s) triggered, " ++
    s.record.stats.conflicts.toText ++ " conflict(s)"

def history (s : Shell) : CommandOutcome :=
  let history := s.session.engine.history
  s.say (if history.isEmpty then ["No ticks have run yet."] else history.map historyLine)

/-- Moves the cursor and shows the snapshot that it reaches. -/
def replay (s : Shell)
    (move : Cursor → List Snapshot → Option Snapshot × Cursor) : CommandOutcome :=
  let (found, cursor) := move (s.cursor.getD Cursor.new) s.session.engine.history
  let s := { s with cursor := some cursor }
  match found with
  | none => s.say ["Nothing to replay there."]
  | some snapshot =>
    s.say (("Replaying tick " ++ snapshot.tick.toText ++ " (read-only):") :: snapshot.lines true)

def rewind (s : Shell) (argument : Option String) : CommandOutcome :=
  match argument.map Number.ofText with
  | none => s.say ["Usage: rewind <tick>"]
  | some tick =>
    if tick.isInteger then s.replay fun cursor commits => cursor.seek commits tick
    else s.say ["Usage: rewind <tick>"]

def reset (s : Shell) : CommandOutcome :=
  match s.sessions.reset s.session.id with
  | (.error failure, _, notices) => ⟨.error failure, s, notices⟩
  | (.ok session, sessions, notices) =>
    ⟨.ok true, ⟨sessions, session, none⟩,
      notices ++ [.plain ("Session reset to scenario '" ++ session.scenario.name ++ "'.")]⟩

/-- Runs one command. -/
def run (s : Shell) (command : Command) : CommandOutcome :=
  let first := command.arguments.head?
  match command.name with
  | "" => s.say []
  | "exit" => ⟨.ok false, s, [.plain "Exiting harbor simulation shell..."]⟩
  | "help" => s.say help
  | "tick" => s.tick first
  | "input" => s.input first
  | "set" => s.set command.arguments
  | "state" => s.state first
  | "explain" => s.explain first
  | "history" => s.history
  | "rewind" => s.rewind first
  | "back" => s.replay Cursor.back
  | "forward" => s.replay Cursor.forward
  | "reset" => s.reset
  | name => s.say ["Unknown command '" ++ name ++ "'. Type 'help' for the list."]

/-- Starts a shell on a new session. -/
def start (sessions : Sessions) (scenario : Value) :
    Except Failure Shell × Sessions × List Notice :=
  match sessions.create scenario with
  | (.error failure, sessions, notices) => (.error failure, sessions, notices)
  | (.ok session, sessions, notices) =>
    (.ok ⟨sessions, session, none⟩, sessions,
      notices ++ [.plain ("Starting interactive shell on scenario '" ++ session.scenario.name ++
        "'. Type \"help\" for commands, \"exit\" to quit.")])

/-- Runs a line as it was typed. A command that fails is reported, and the shell
goes on. -/
def step (s : Shell) (typed : String) : Bool × Shell × List Notice :=
  let line := Text.trim typed
  let outcome := s.run (.ofText line)
  match outcome.result with
  | .ok goesOn => (goesOn, outcome.shell, outcome.notices)
  | .error failure =>
    (true, outcome.shell, outcome.notices ++
      [.error ("Error: " ++ failure.recorded.line),
        .debug ("Shell command \"" ++ line ++ "\" failed.")])

/-- The end of a scripted shell. -/
structure ScriptOutcome where
  shell : Shell
  /-- How many lines were read. -/
  asked : Nat
  unread : List String
  notices : List Notice

/-- Feeds lines to a shell until it stops; after the last line it is told to exit. -/
def runScript (s : Shell) : List String → ScriptOutcome
  | [] =>
    let (_, s, notices) := s.step "exit"
    ⟨s, 1, [], notices⟩
  | line :: rest =>
    match s.step line with
    | (false, s, notices) => ⟨s, 1, rest, notices⟩
    | (true, s, notices) =>
      let outcome := runScript s rest
      { outcome with asked := outcome.asked + 1, notices := notices ++ outcome.notices }

def prompt : String := "harbor> "

/-- The sessions that are left once the shell has ended its own. -/
def close (s : Shell) : Sessions := (s.sessions.delete s.session.id).2

end Shell

end Harbormaster
