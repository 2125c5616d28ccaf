import Harbormaster.CommandLine.Execution
import Harbormaster.Rule.Harbour

/-!
The program: a command line on the files and the terminal of this machine. The
rules of the harbour are built in; they are used where no other rule set is
named.
-/

namespace Harbormaster.Terminal

def say (n : Notice) : IO Unit :=
  match n.channel with
  | .debug | .plain => IO.println n.text
  | .warning | .error => IO.eprintln n.text

/-- The name under which the built-in rules are read. -/
def builtInRules : String := "harbour_rules.json"

/-- The code of the failure to find a directory on the way to a file. -/
def notDirectory : UInt32 := 20

/-- Why a file cannot be used; `instead` is what a directory in its place means. -/
def fault (path : String) (instead : DocumentFault) : IO.Error → Failure
  | .inappropriateType _ code _ =>
    .document (if code = notDirectory then .underFile path else instead)
  | _ => .document (.missingFile path)

def fetch (path : String) : IO (Except Failure String) := do
  if path = builtInRules then return .ok (Json.printIndented Harbour.document)
  try
    return .ok (← IO.FS.readFile path)
  catch e =>
    return .error (fault path .directoryRead e)

def store (path text : String) : IO (Except Failure Unit) := do
  try
    IO.FS.writeFile path text
    return .ok ()
  catch e =>
    return .error (fault path (.directoryWritten path) e)

def host (directory : String) : CommandLine.Host IO :=
  { say, fetch, store, directory, standardRules := builtInRules }

/-- The variables of the environment, and those of a file `.env` that it leaves
unset. -/
def environment : IO Variables := do
  let file ← fetch ".env"
  let mut environment := match file with
    | .ok text => Variables.ofText text
    | .error _ => ∅
  for name in Settings.variableNames do
    if let some value ← IO.getEnv name then
      environment := environment.set name value
  return environment

/-- Serves a shell until it stops; at the end of the input it is told to exit. -/
partial def serve (shell : Shell) : IO Unit := do
  IO.print Shell.prompt
  (← IO.getStdout).flush
  let line ← (← IO.getStdin).getLine
  let (goesOn, shell, notices) := shell.step (if line.isEmpty then "exit" else line)
  notices.forM say
  if goesOn then serve shell

end Harbormaster.Terminal

open Harbormaster in
def main (words : List String) : IO UInt32 := do
  let directory := (← IO.getEnv "PWD").getD "."
  let request := CommandLine.Request.ofWords words
  let ending ← (Terminal.host directory).execute (← Terminal.environment) request
  if let .serve shell := ending then Terminal.serve shell
  return ending.exitCode.toUInt32
