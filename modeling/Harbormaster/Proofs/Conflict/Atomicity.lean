import Harbormaster.Proofs.Conflict.Ends

/-!
What an action that fails leaves behind. It leaves the world and the bus alone
and adds no conflict. The ledger is left alone as well, with one exception: a
conflict whose outcome the cell refuses stays listed with the cell, and a later
write of another rule is then settled against it. The exception is described
exactly and shown to make a difference.
-/

namespace Harbormaster.Stage

variable {s : Stage} {known : String → Bool} {rule : Rule} {action : Action}

/-- Whether an action is a write into a conflict whose outcome its cell refuses. -/
def Withholds (s : Stage) (known : String → Bool) (rule : Rule) (action : Action) : Prop :=
  ∃ target value range before message entry failure,
    Deed.ofAction known rule action s.world = .ok (.write target value range before message) ∧
    s.ledger.entries.get? target = some entry ∧
    ¬ entry.SoleWriter rule.id ∧
    Ledger.apply s.world target
      (s.ledger.resolution entry (requestOf rule action target value range)).value =
        .error failure

/-- What a failed action may leave behind: everything is as it was, but that a
cell lists the write that came to nothing. -/
inductive Residue (s : Stage) (known : String → Bool) (rule : Rule) (action : Action) :
    Stage → Prop where
  | nothing (hpasses : ¬ s.Withholds known rule action) : Residue s known rule action s
  | listed {target : String} {value : Value} {range : Option ClampRange} {entry : CellEntry}
      (hwithholds : s.Withholds known rule action)
      (hentry : s.ledger.entries.get? target = some entry) :
      Residue s known rule action
        { s with
          ledger := s.ledger.put target (entry.listing (requestOf rule action target value range)) }

/-- Of what an action amounts to only a write can fail, so everything but a write
of a refused conflict leaves the stage as it was. -/
theorem residue_of_failed {failure : Failure}
    (hfailed : (s.execute known rule action).result = .error failure) :
    Residue s known rule action (s.execute known rule action).stage := by
  unfold execute at hfailed ⊢
  cases hdeed : Deed.ofAction known rule action s.world with
  | error refused =>
    apply Residue.nothing
    rintro ⟨target, value, range, before, message, entry, failure, hwrite, -⟩
    rw [hdeed] at hwrite
    cases hwrite
  | ok deed =>
    simp only [hdeed] at hfailed ⊢
    cases deed with
    | recommend | trigger | spawn | log => cases hfailed
    | write target value range before message =>
      have hwrote := wrote_performWrite s rule action target value range before message
      simp only [perform] at hfailed ⊢
      generalize (s.performWrite rule action target value range before message).stage = s'
        at hwrote ⊢
      generalize (s.performWrite rule action target value range before message).result = result
        at hwrote hfailed
      cases hwrote with
      | @intro _ _ outcome hend =>
        cases outcome with
        | ok => cases hfailed
        | error =>
          cases hend with
          | refused _ hsole =>
            apply Residue.nothing
            rintro ⟨_, _, _, _, _, entry, _, hwrite, hentry, hothers, -⟩
            rw [hdeed] at hwrite
            cases hwrite
            exact hothers (hsole entry hentry)
          | withheld hentry hothers hrefused =>
            exact .listed ⟨target, value, range, before, message, _, _, hdeed, hentry, hothers,
              hrefused⟩ hentry

/-- An action that fails changes neither the world nor the bus nor the conflicts
so far, and no cell holds another value or another holder by it. It leaves
nothing behind at all exactly when it is no write into a conflict whose outcome
the cell refuses. -/
theorem failed_action_leaves_stage_iff {failure : Failure}
    (hfailed : (s.execute known rule action).result = .error failure) :
    (s.execute known rule action).stage.world = s.world ∧
      (s.execute known rule action).stage.bus = s.bus ∧
      (s.execute known rule action).stage.ledger.records = s.ledger.records ∧
      (∀ path, (s.execute known rule action).stage.ledger.entries.get? path =
          s.ledger.entries.get? path ∨
        ∃ entry value range, s.ledger.entries.get? path = some entry ∧
          (s.execute known rule action).stage.ledger.entries.get? path =
            some (entry.listing (requestOf rule action path value range))) ∧
      ((s.execute known rule action).stage = s ↔ ¬ s.Withholds known rule action) := by
  have hresidue := residue_of_failed hfailed
  generalize (s.execute known rule action).stage = s' at hresidue ⊢
  cases hresidue with
  | nothing hpasses =>
    refine ⟨rfl, rfl, rfl, ?_, ?_⟩
    · intro path
      exact .inl rfl
    · simpa using hpasses
  | @listed target value range entry hwithholds hentry =>
    refine ⟨rfl, rfl, rfl, ?_, ?_⟩
    · intro path
      by_cases hpath : path = target
      · right
        subst hpath
        refine ⟨entry, value, range, hentry, ?_⟩
        simp [Ledger.put]
      · left
        simp [Ledger.put, hpath]
    · constructor
      · intro hsame
        have hlisted := congrArg (·.ledger.entries.get? target) hsame
        simp only [Ledger.put, Record.get?_set, if_true, hentry, Option.some.injEq] at hlisted
        exact absurd hlisted (CellEntry.listing_ne entry _)
      · intro hpasses
        exact absurd hwithholds hpasses

/-- A rule of which no more is known than its id and its priority. -/
def ranked (id : String) (priority : Number) : Rule :=
  { id, priority, conditions := [], logic := "AND", actions := [], template := "", metadata := ∅ }

def zoning (value : Value) : Action :=
  ⟨.set, .ofList [("target", "environment.zone"), ("value", value)]⟩

def towing (id : String) (priority : Number) (field : String) (value : Value) : Rule :=
  { ranked id priority with
    actions := [⟨.set, .ofList [("target", .text ("agents.tug." ++ field)), ("value", value)]⟩] }

/-- A world with a tug of which nothing is known. -/
def tugged : World := { (default : World) with agents := .ofList [("tug", ⟨"tug", ∅, ∅⟩)] }

/-- A stage on which one rule has set the zone. -/
def zoned : Stage :=
  let start : Stage := ⟨default, Ledger.new .standard, EventBus.new .tick⟩
  (start.execute (fun _ => false) (ranked "pilot" 1) (zoning "harbour")).stage

/-- The attempt of a second rule to set the zone to a list, which no zone can be. -/
def misled : Execution :=
  zoned.execute (fun _ => false) (ranked "tower" 2) (zoning (.list ["harbour"]))

theorem aimless_action_leaves_stage :
    (zoned.execute (fun _ => false) (ranked "tower" 2) ⟨.set, ∅⟩).stage = zoned := by
  have hfailed : (zoned.execute (fun _ => false) (ranked "tower" 2) ⟨.set, ∅⟩).result =
      .error (.invalidAction (.missingParameter .set "target")) := rfl
  obtain ⟨-, -, -, -, hatomic⟩ := failed_action_leaves_stage_iff hfailed
  apply hatomic.mpr
  rintro ⟨target, value, range, before, message, entry, failure, hdeed, -⟩
  cases hdeed

/-- An attempt that failed is remembered: what would only have updated the zone
is a conflict after it. -/
theorem failed_action_makes_conflict :
    misled.result.toBool = false ∧ misled.stage ≠ zoned ∧
      ((zoned.execute (fun _ => false) (ranked "pilot" 1) (zoning "sea")).result.toOption.bind
        (·.conflictId)) = none ∧
      ((misled.stage.execute (fun _ => false) (ranked "pilot" 1)
        (zoning "sea")).result.toOption.bind (·.conflictId)).isSome = true := by
  have hbefore : ((zoned.execute (fun _ => false) (ranked "pilot" 1)
      (zoning "sea")).result.toOption.bind (·.conflictId)) = none := by decide +kernel
  have hafter : ((misled.stage.execute (fun _ => false) (ranked "pilot" 1)
      (zoning "sea")).result.toOption.bind (·.conflictId)).isSome = true := by decide +kernel
  refine ⟨by decide +kernel, ?_, hbefore, hafter⟩
  intro hsame
  rw [hsame, hbefore] at hafter
  cases hafter

end Harbormaster.Stage
