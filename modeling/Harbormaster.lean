import Harbormaster.Action.Deed
import Harbormaster.Action.Execution
import Harbormaster.Arrangement.Basic
import Harbormaster.Arrangement.Gallop
import Harbormaster.Arrangement.Merge
import Harbormaster.Arrangement.Run
import Harbormaster.CommandLine.Disk
import Harbormaster.CommandLine.Execution
import Harbormaster.CommandLine.Flags
import Harbormaster.CommandLine.Host
import Harbormaster.CommandLine.Request
import Harbormaster.Condition.Comparison
import Harbormaster.Condition.Evaluation
import Harbormaster.Conflict.Basic
import Harbormaster.Conflict.Ledger
import Harbormaster.Conflict.Resolution
import Harbormaster.Engine.Basic
import Harbormaster.Engine.Snapshot
import Harbormaster.Engine.Tick
import Harbormaster.Event.Bus
import Harbormaster.Event.Digest
import Harbormaster.Explanation.Basic
import Harbormaster.Explanation.Document
import Harbormaster.Explanation.Draft
import Harbormaster.Explanation.Stored
import Harbormaster.Explanation.Template
import Harbormaster.Expression.Evaluation
import Harbormaster.Expression.Operand
import Harbormaster.Expression.Token
import Harbormaster.Failure
import Harbormaster.History.Cursor
import Harbormaster.History.Store
import Harbormaster.Input.Basic
import Harbormaster.Input.Spec
import Harbormaster.Json.Parser
import Harbormaster.Json.Printer
import Harbormaster.Json.Token
import Harbormaster.Main
import Harbormaster.Notice
import Harbormaster.Number.Basic
import Harbormaster.Number.Decimal
import Harbormaster.Number.Reader
import Harbormaster.Path
import Harbormaster.Proofs.Action.Deeds
import Harbormaster.Proofs.Action.Failures
import Harbormaster.Proofs.Action.Footprint
import Harbormaster.Proofs.Action.Raised
import Harbormaster.Proofs.Arrangement.Permutation
import Harbormaster.Proofs.Condition.Settling
import Harbormaster.Proofs.Condition.Sources
import Harbormaster.Proofs.Conflict.Atomicity
import Harbormaster.Proofs.Conflict.Books
import Harbormaster.Proofs.Conflict.Course
import Harbormaster.Proofs.Conflict.Ends
import Harbormaster.Proofs.Conflict.Entries
import Harbormaster.Proofs.Conflict.Holder
import Harbormaster.Proofs.Conflict.Keys
import Harbormaster.Proofs.Conflict.Merges
import Harbormaster.Proofs.Conflict.Priorities
import Harbormaster.Proofs.Conflict.Ranges
import Harbormaster.Proofs.Conflict.Records
import Harbormaster.Proofs.Conflict.Review
import Harbormaster.Proofs.Conflict.Values
import Harbormaster.Proofs.Engine.Accounting
import Harbormaster.Proofs.Engine.Bystander
import Harbormaster.Proofs.Engine.Calls
import Harbormaster.Proofs.Engine.Chaining
import Harbormaster.Proofs.Engine.Clock
import Harbormaster.Proofs.Engine.Commits
import Harbormaster.Proofs.Engine.Completion
import Harbormaster.Proofs.Engine.Conflicts
import Harbormaster.Proofs.Engine.Discipline
import Harbormaster.Proofs.Engine.Emergency
import Harbormaster.Proofs.Engine.Events
import Harbormaster.Proofs.Engine.Filled
import Harbormaster.Proofs.Engine.Identifiers
import Harbormaster.Proofs.Engine.Independence
import Harbormaster.Proofs.Engine.Rejection
import Harbormaster.Proofs.Engine.Restoring
import Harbormaster.Proofs.Engine.Validation
import Harbormaster.Proofs.Event.Names
import Harbormaster.Proofs.Event.Visibility
import Harbormaster.Proofs.Explanation.Replay
import Harbormaster.Proofs.Explanation.Templates
import Harbormaster.Proofs.Expression.Braces
import Harbormaster.Proofs.Expression.Failures
import Harbormaster.Proofs.Expression.Grammar
import Harbormaster.Proofs.Expression.Lexemes
import Harbormaster.Proofs.Expression.Printing
import Harbormaster.Proofs.Expression.Reads
import Harbormaster.Proofs.History.Cursors
import Harbormaster.Proofs.History.Numbering
import Harbormaster.Proofs.History.Replays
import Harbormaster.Proofs.Input.Copies
import Harbormaster.Proofs.Input.Emergency
import Harbormaster.Proofs.Input.Filled
import Harbormaster.Proofs.Input.Kept
import Harbormaster.Proofs.Input.Literals
import Harbormaster.Proofs.Input.Spelling
import Harbormaster.Proofs.Input.Trials
import Harbormaster.Proofs.Input.Written
import Harbormaster.Proofs.Number.Finite
import Harbormaster.Proofs.Number.Integers
import Harbormaster.Proofs.Number.Order
import Harbormaster.Proofs.Number.Rounding
import Harbormaster.Proofs.Number.Whole
import Harbormaster.Proofs.Path.Locations
import Harbormaster.Proofs.Path.Rendering
import Harbormaster.Proofs.Path.Spelling
import Harbormaster.Proofs.Record.Members
import Harbormaster.Proofs.Rule.Accepted
import Harbormaster.Proofs.Rule.Normal
import Harbormaster.Proofs.Rule.Order
import Harbormaster.Proofs.Rule.Passed
import Harbormaster.Proofs.Rule.Reading
import Harbormaster.Proofs.Session.Calls
import Harbormaster.Proofs.Session.Isolation
import Harbormaster.Proofs.Shell.Arguments
import Harbormaster.Proofs.Shell.Lines
import Harbormaster.Proofs.Shell.Script
import Harbormaster.Proofs.Shell.Words
import Harbormaster.Proofs.Text.Occurrences
import Harbormaster.Proofs.Text.Pieces
import Harbormaster.Proofs.Text.Runs
import Harbormaster.Proofs.Tick.Accounting
import Harbormaster.Proofs.Tick.Bystander
import Harbormaster.Proofs.Tick.Chains
import Harbormaster.Proofs.Tick.Conflicts
import Harbormaster.Proofs.Tick.Contents
import Harbormaster.Proofs.Tick.Coverage
import Harbormaster.Proofs.Tick.DepthFirst
import Harbormaster.Proofs.Tick.Failures
import Harbormaster.Proofs.Tick.Identifiers
import Harbormaster.Proofs.Tick.Independence
import Harbormaster.Proofs.Tick.Links
import Harbormaster.Proofs.Tick.Moments
import Harbormaster.Proofs.Tick.Overflow
import Harbormaster.Proofs.Tick.Parties
import Harbormaster.Proofs.Tick.Requests
import Harbormaster.Proofs.Tick.Spawns
import Harbormaster.Proofs.Tick.Steps
import Harbormaster.Proofs.Tick.Stops
import Harbormaster.Proofs.Tick.Traceability
import Harbormaster.Proofs.Tick.Turns
import Harbormaster.Proofs.Tick.Walk
import Harbormaster.Proofs.Value.Contents
import Harbormaster.Proofs.Value.Equality
import Harbormaster.Proofs.Value.Plain
import Harbormaster.Proofs.Value.Solid
import Harbormaster.Proofs.World.Agreement
import Harbormaster.Proofs.World.Cells
import Harbormaster.Proofs.World.Contents
import Harbormaster.Proofs.World.Discipline
import Harbormaster.Proofs.World.Filled
import Harbormaster.Proofs.World.Independence
import Harbormaster.Proofs.World.Refusals
import Harbormaster.Proofs.World.Taken
import Harbormaster.Proofs.World.Texts
import Harbormaster.Record
import Harbormaster.Report.Document
import Harbormaster.Report.History
import Harbormaster.Report.Lines
import Harbormaster.Report.Visitors
import Harbormaster.Rule.Basic
import Harbormaster.Rule.Document
import Harbormaster.Rule.File
import Harbormaster.Rule.Harbour
import Harbormaster.Rule.Order
import Harbormaster.Rule.Summary
import Harbormaster.Run
import Harbormaster.Scenario
import Harbormaster.Session.Basic
import Harbormaster.Settings
import Harbormaster.Shell.Basic
import Harbormaster.Shell.Words
import Harbormaster.Text.Blank
import Harbormaster.Text.Cased
import Harbormaster.Text.Lowercase
import Harbormaster.Text.Units
import Harbormaster.Value.Basic
import Harbormaster.Value.Inheritance
import Harbormaster.Value.Order
import Harbormaster.Value.Written
import Harbormaster.World.Basic
import Harbormaster.World.Cell
import Harbormaster.World.Document
