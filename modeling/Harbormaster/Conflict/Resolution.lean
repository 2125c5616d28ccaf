import Harbormaster.Conflict.Basic
import Harbormaster.Notice

/-!
Settling one conflicting write. By priority the incoming write wins only with a
higher priority; the last write always wins; a merge intersects clamping ranges
and averages numbers, and gives way to priority where that is impossible; a
manual review takes the cell back to its value before the tick. A verdict says
which of these ends it comes to, and a resolution what the cell is like then.
-/

namespace Harbormaster

/-- The ways in which a conflicting write can end. -/
inductive Verdict where
  /-- The incoming write takes the cell. -/
  | taken
  /-- The cell stays as it is. -/
  | kept
  /-- The writes are merged into one value, with what a later merge starts from. -/
  | merged (value : Number) (scalar : Option Number) (range : Option ClampRange)
  /-- The cell goes back to its value before the tick. -/
  | reverted

namespace Verdict

def byPriority (entry : CellEntry) (incoming : WriteRequest) : Verdict :=
  if entry.holderPriority.lt incoming.priority then taken else kept

/-- The range that clamping writes have in common. -/
def mergedRange (entry : CellEntry) (incoming : WriteRequest) (added : ClampRange) :
    Except MergeFault ClampRange :=
  let range := match entry.range with
    | some held => held.meet added
    | none => added
  if range.high.lt range.low then .error (.disjointRanges incoming.path) else .ok range

/-- The number that numeric writes have in common: the first one as it is, and
each further one averaged with it. -/
def mergedScalar (entry : CellEntry) (incoming : WriteRequest) : Except MergeFault Number :=
  match incoming.value with
  | .number added =>
    match entry.scalar with
    | some held => .ok ((held + added) / 2)
    | none =>
      if entry.range.isNone then .error (.heldNotNumeric incoming.path) else .ok added
  | found => .error (.incomingNotNumeric incoming.path found)

/-- A value clamped into the merged range; without a number of its own the range
applies to the value that the cell holds. -/
def combine (entry : CellEntry) (incoming : WriteRequest) (scalar : Option Number)
    (range : Option ClampRange) : Except MergeFault Verdict :=
  match scalar.or entry.value.number? with
  | none => .error (.nothingToClamp incoming.path)
  | some source =>
    match range with
    | some bounds => .ok (.merged (bounds.clamp source) scalar range)
    | none => .ok (.merged source scalar range)

def merge (entry : CellEntry) (incoming : WriteRequest) : Except MergeFault Verdict :=
  match incoming.range with
  | some added =>
    match mergedRange entry incoming added with
    | .ok range => combine entry incoming entry.scalar (some range)
    | .error fault => .error fault
  | none =>
    match mergedScalar entry incoming with
    | .ok scalar => combine entry incoming (some scalar) entry.range
    | .error fault => .error fault

end Verdict

/-- A verdict and how it came about. -/
structure Judgement where
  verdict : Verdict
  /-- The strategy that led to it. -/
  strategy : Strategy
  /-- Why a merge was impossible, where priority had to stand in for it. -/
  obstacle : Option MergeFault

/-- Judges a conflicting write by a strategy. -/
def Strategy.judge (strategy : Strategy) (entry : CellEntry) (incoming : WriteRequest) :
    Judgement :=
  match strategy with
  | .priority => ⟨.byPriority entry incoming, .priority, none⟩
  | .lastWriteWins => ⟨.taken, .lastWriteWins, none⟩
  | .merge =>
    match Verdict.merge entry incoming with
    | .ok verdict => ⟨verdict, .merge, none⟩
    | .error fault => ⟨.byPriority entry incoming, .priority, some fault⟩
  | .manualReview => ⟨.reverted, .manualReview, none⟩

namespace Resolution

/-- The incoming write takes the cell. -/
def win (incoming : WriteRequest) (strategy : Strategy) : Resolution :=
  { strategy
    value := incoming.value
    holder := some incoming.ruleId
    holderPriority := incoming.priority
    scalar := incoming.scalar?
    range := incoming.range
    mergedRules := []
    resolved := true
    fallbackFrom := none
    note := none }

/-- The cell stays as it is. -/
def keep (entry : CellEntry) (strategy : Strategy) : Resolution :=
  { strategy
    value := entry.value
    holder := entry.holder
    holderPriority := entry.holderPriority
    scalar := entry.scalar
    range := entry.range
    mergedRules := entry.mergedRules
    resolved := true
    fallbackFrom := none
    note := none }

/-- The rules that have a part in a merged value. -/
def contributors (entry : CellEntry) (incoming : WriteRequest) : List String :=
  let before :=
    if !entry.mergedRules.isEmpty then entry.mergedRules
    else (entry.holder.filter (!·.isEmpty)).toList
  before.filter (· ≠ incoming.ruleId) ++ [incoming.ruleId]

/-- The cell holds a merged value. -/
def join (entry : CellEntry) (incoming : WriteRequest) (value : Number)
    (scalar : Option Number) (range : Option ClampRange) : Resolution :=
  { strategy := .merge
    value := .number value
    holder := some incoming.ruleId
    holderPriority := .number (entry.holderPriority.asNumber.max incoming.priority.asNumber)
    scalar
    range
    mergedRules := contributors entry incoming
    resolved := true
    fallbackFrom := none
    note := none }

/-- The cell waits for a review with the value that it had before the tick. -/
def review (entry : CellEntry) : Resolution :=
  { strategy := .manualReview
    value := entry.base
    holder := none
    holderPriority := .number (.infinite true)
    scalar := none
    range := none
    mergedRules := []
    resolved := false
    fallbackFrom := none
    note := some "Path restored to its pre-conflict value pending manual review" }

/-- What a verdict makes of a cell. -/
def ofVerdict (strategy : Strategy) (entry : CellEntry) (incoming : WriteRequest) :
    Verdict → Resolution
  | .taken => win incoming strategy
  | .kept => keep entry strategy
  | .merged value scalar range => join entry incoming value scalar range
  | .reverted => review entry

/-- The resolution of a judgement; where priority stood in for a merge it says why. -/
def ofJudgement (entry : CellEntry) (incoming : WriteRequest) (j : Judgement) : Resolution :=
  let resolution := ofVerdict j.strategy entry incoming j.verdict
  match j.obstacle with
  | none => resolution
  | some fault =>
    { resolution with
      fallbackFrom := some .merge
      note := some (Failure.unmergeable fault).recorded.line }

end Resolution

/-- The notice of a merge that was impossible. -/
def Judgement.notices (j : Judgement) : List Notice :=
  match j.obstacle with
  | none => []
  | some fault =>
    [.debug ("ConflictResolver: " ++ fault.message ++ "; falling back to PRIORITY.")]

/-- Settles a conflicting write by a strategy. -/
def Strategy.resolve (strategy : Strategy) (entry : CellEntry) (incoming : WriteRequest) :
    Resolution × List Notice :=
  let judgement := strategy.judge entry incoming
  (.ofJudgement entry incoming judgement, judgement.notices)

end Harbormaster
