import Mathlib.Tactic.ByContra
import Harbormaster.Proofs.Conflict.Ends

/-!
A rule that writes again the cell that it holds. Whether its write updates the
cell or is settled as a conflict does not depend on who holds the cell but on who
has ever written it in the tick: a rule that has won its cell from another one is
in conflict with it for good. Under priorities it then even loses against its own
former write.
-/

namespace Harbormaster

theorem Text.unitsLe_refl (units : List Nat) : Text.unitsLe units units = true := by
  induction units with
  | nil => rfl
  | cons unit rest ih => simp [Text.unitsLe, ih]

theorem Number.lt_irrefl (n : Number) : n.lt n = false := by
  cases n with
  | finite => simp [Number.lt]
  | infinite negative => cases negative <;> rfl
  | notANumber => rfl

/-- No priority is higher than itself, also among priorities that are no numbers. -/
theorem Value.lt_irrefl (v : Value) : v.lt v = false := by
  unfold Value.lt
  split
  · simp [Text.le, Text.unitsLe_refl]
  · exact Number.lt_irrefl _

/-- A cell that one rule holds for itself. -/
structure CellEntry.HeldOutright (entry : CellEntry) (rule : String) : Prop where
  holder : entry.holder = some rule
  unmerged : entry.mergedRules = []
  settled : entry.underReview = false

namespace Ledger

/-- The ledgers and worlds that the writes of a tick lead to, where `ranks` gives
the priority of each rule. -/
inductive Reached (ranks : String → Value) (policy : Policy) (tick : Value) (start : World) :
    Ledger → World → Prop where
  | begun : Reached ranks policy tick start ((new policy).beginTick tick) start
  | written {l : Ledger} {w : World} (hbefore : Reached ranks policy tick start l w)
      (request : WriteRequest) (hrank : request.priority = ranks request.ruleId) :
      Reached ranks policy tick start (l.write w request).ledger (l.write w request).world

def HoldersRanked (ranks : String → Value) (l : Ledger) : Prop :=
  ∀ path entry rule, l.entries.get? path = some entry → entry.holder = some rule →
    entry.mergedRules = [] → entry.holderPriority = ranks rule

variable {ranks : String → Value} {policy : Policy} {tick : Value} {start : World}
  {l : Ledger} {w : World} {request : WriteRequest} {entry : CellEntry}

theorem HoldersRanked.put (h : HoldersRanked ranks l) {path : String}
    (hentry : ∀ rule, entry.holder = some rule → entry.mergedRules = [] →
      entry.holderPriority = ranks rule) : HoldersRanked ranks (l.put path entry) := by
  intro other held rule hheld hholder hmerged
  simp only [Ledger.put, Record.get?_set] at hheld
  split at hheld
  · cases hheld
    exact hentry rule hholder hmerged
  · exact h other held rule hheld hholder hmerged

theorem contributors_ne_nil (entry : CellEntry) (request : WriteRequest) :
    Resolution.contributors entry request ≠ [] := by
  unfold Resolution.contributors
  exact List.append_ne_nil_of_right_ne_nil _ (List.cons_ne_nil _ _)

/-- A conflict gives its cell to the incoming rule, leaves it where it was, shares
it or takes it from everyone; its priority comes along. -/
theorem resolution_ranked (hrank : request.priority = ranks request.ruleId)
    (hentry : ∀ rule, entry.holder = some rule → entry.mergedRules = [] →
      entry.holderPriority = ranks rule) (rule : String)
    (hholder : (l.resolution entry request).holder = some rule)
    (hmerged : (l.resolution entry request).mergedRules = []) :
    (l.resolution entry request).holderPriority = ranks rule := by
  simp only [resolution, Strategy.resolve] at hholder hmerged ⊢
  generalize (l.strategyFor entry request).judge entry request = judgement at hholder hmerged ⊢
  obtain ⟨verdict, strategy, obstacle⟩ := judgement
  have hverdict : (Resolution.ofVerdict strategy entry request verdict).holder = some rule →
      (Resolution.ofVerdict strategy entry request verdict).mergedRules = [] →
      (Resolution.ofVerdict strategy entry request verdict).holderPriority = ranks rule := by
    cases verdict with
    | taken =>
      intro htaken _
      cases htaken
      exact hrank
    | kept => exact hentry rule
    -- a merged value always has contributors, so nobody holds it outright
    | merged => exact fun _ hnone => absurd hnone (contributors_ne_nil entry request)
    | reverted => exact fun hnobody => nomatch hnobody
  cases obstacle with
  | none => exact hverdict hholder hmerged
  | some => exact hverdict hholder hmerged

theorem HoldersRanked.write {l' : Ledger} {w' : World} {outcome : Except Failure WriteOutcome}
    (h : HoldersRanked ranks l) (hrank : request.priority = ranks request.ruleId)
    (hend : End l w request l' w' outcome) : HoldersRanked ranks l' := by
  cases hend with
  | refused => exact h
  | opened =>
    apply h.put
    intro rule hholder _
    cases hholder
    exact hrank
  | @updated entry _ hentry | @withheld entry _ hentry =>
    apply h.put
    intro rule hholder hmerged
    exact h request.path entry rule hentry hholder hmerged
  | @settled entry _ hentry =>
    apply h.put
    intro rule hholder hmerged
    refine resolution_ranked hrank ?_ rule hholder hmerged
    intro rule hholder hmerged
    exact h request.path entry rule hentry hholder hmerged

theorem Reached.holdersRanked (h : Reached ranks policy tick start l w) :
    HoldersRanked ranks l := by
  induction h with
  | begun =>
    intro path entry rule hentry
    cases hentry
  | written _ request hrank ih => exact ih.write hrank (end_write _ _ request)

/-- A write that updates its cell: the cell holds what was written, and there is
no conflict. -/
structure Updates (l : Ledger) (w : World) (request : WriteRequest) : Prop where
  outcome : (l.write w request).outcome = .ok ⟨request.value, none⟩
  world : w.write request.path request.value = .ok (l.write w request).world
  records : (l.write w request).ledger.records = l.records

theorem updates_of_soleWriter {world : World}
    (hentry : l.entries.get? request.path = some entry) (hsole : entry.SoleWriter request.ruleId)
    (haccepts : w.write request.path request.value = .ok world) : l.Updates w request := by
  have hall : entry.writers.all (·.ruleId = request.ruleId) = true := by
    simpa [CellEntry.SoleWriter] using hsole
  have hwrite : l.write w request =
      ⟨l.put request.path (updatedEntry entry request), world, .ok ⟨request.value, none⟩, []⟩ := by
    simp [Ledger.write, hentry, hall, writeAgain, haccepts]
  constructor
  · rw [hwrite]
  · rw [hwrite]
    exact haccepts
  · rw [hwrite]
    rfl

/-- With another writer known of its cell, a write that goes through is recorded
as one more conflict. -/
theorem conflict_of_others {l' : Ledger} {w' : World} {outcome : WriteOutcome}
    (hentry : l.entries.get? request.path = some entry)
    (hothers : ¬ entry.SoleWriter request.ruleId)
    (hend : End l w request l' w' (.ok outcome)) :
    outcome.value = (l.resolution entry request).value ∧
      ∃ record, outcome.conflict = some record ∧ l'.records = l.records ++ [record] := by
  cases hend with
  | opened hfresh =>
    rw [hentry] at hfresh
    cases hfresh
  | updated hentry' hsole =>
    rw [hentry] at hentry'
    cases hentry'
    exact absurd hsole hothers
  | settled hentry' =>
    rw [hentry] at hentry'
    cases hentry'
    exact ⟨rfl, _, rfl, rfl⟩

theorem priority_keeps (hpriority : l.strategyFor entry request = .priority)
    (hrank : entry.holderPriority = request.priority) :
    (l.resolution entry request).value = entry.value := by
  have hverdict : Verdict.byPriority entry request = .kept := by
    unfold Verdict.byPriority
    rw [hrank, Value.lt_irrefl]
    rfl
  simp [resolution, hpriority, Strategy.resolve, Strategy.judge, hverdict, Resolution.ofJudgement,
    Resolution.ofVerdict, Resolution.keep]

/-- A further write by the rule that holds a cell outright updates the cell exactly
when no other rule's write of it is known in the tick. Otherwise it is recorded as
a conflict if it goes through, and where priorities decide the cell keeps the
former value: the rule does not outrank itself. -/
theorem holder_write_updates_iff {world : World}
    (hreached : Reached ranks policy tick start l w)
    (hrank : request.priority = ranks request.ruleId)
    (hentry : l.entries.get? request.path = some entry)
    (hheld : entry.HeldOutright request.ruleId)
    (haccepts : w.write request.path request.value = .ok world) :
    (l.Updates w request ↔ entry.SoleWriter request.ruleId) ∧
      (¬ entry.SoleWriter request.ruleId → ∀ outcome,
        (l.write w request).outcome = .ok outcome →
          (∃ record, outcome.conflict = some record ∧
            (l.write w request).ledger.records = l.records ++ [record]) ∧
          (l.strategyFor entry request = .priority → outcome.value = entry.value)) := by
  have hconflict : ¬ entry.SoleWriter request.ruleId → ∀ outcome,
      (l.write w request).outcome = .ok outcome →
        outcome.value = (l.resolution entry request).value ∧
          ∃ record, outcome.conflict = some record ∧
            (l.write w request).ledger.records = l.records ++ [record] := by
    intro hothers outcome houtcome
    have hend := end_write l w request
    rw [houtcome] at hend
    exact conflict_of_others hentry hothers hend
  constructor
  · constructor
    · intro hupdates
      by_contra hothers
      obtain ⟨-, record, hrecord, -⟩ := hconflict hothers _ hupdates.outcome
      cases hrecord
    · intro hsole
      exact updates_of_soleWriter hentry hsole haccepts
  · intro hothers outcome houtcome
    obtain ⟨hvalue, hrecorded⟩ := hconflict hothers outcome houtcome
    refine ⟨hrecorded, ?_⟩
    intro hpriority
    have hholder := hreached.holdersRanked _ _ _ hentry hheld.holder hheld.unmerged
    rw [hvalue]
    exact priority_keeps hpriority (hholder.trans hrank.symm)

def harbourRanks (rule : String) : Value := if rule = "pilot" then 2 else 1

def zoneRequest (rule : String) (zone : Value) : WriteRequest :=
  { path := "environment.zone", value := zone, ruleId := rule, priority := harbourRanks rule
    action := ⟨.set, ∅⟩, ruleMetadata := ∅, range := none }

def towerSet : WriteAttempt :=
  ((new .standard).beginTick 0).write default (zoneRequest "tower" "harbour")

/-- The zone won by the pilot, who outranks the tower. -/
def pilotWon : WriteAttempt := towerSet.ledger.write towerSet.world (zoneRequest "pilot" "sea")

/-- What is known of the zone then. -/
def wonZone : CellEntry :=
  (pilotWon.ledger.entries.get? "environment.zone").get (by decide +kernel)

theorem pilotWon_reached :
    Reached harbourRanks .standard 0 default pilotWon.ledger pilotWon.world :=
  .written (.written .begun _ rfl) _ rfl

theorem get?_pilotWon : pilotWon.ledger.entries.get? "environment.zone" = some wonZone :=
  (Option.some_get _).symm

theorem heldOutright_wonZone : wonZone.HeldOutright "pilot" :=
  ⟨by decide +kernel, by decide +kernel, by decide +kernel⟩

private theorem ok_of_toBool {α : Type} {result : Except Failure α}
    (h : result.toBool = true) : ∃ value, result = .ok value := by
  cases result with
  | error failure => cases h
  | ok value => exact ⟨value, rfl⟩

theorem pilotWon_accepts :
    ∃ world, pilotWon.world.write "environment.zone" "dock" = .ok world :=
  ok_of_toBool (by decide +kernel)

theorem pilot_keeps_former_zone :
    ∃ outcome, (pilotWon.ledger.write pilotWon.world (zoneRequest "pilot" "dock")).outcome =
      .ok outcome ∧ outcome.value = wonZone.value := by
  have hentry : pilotWon.ledger.entries.get? (zoneRequest "pilot" "dock").path =
      some wonZone := get?_pilotWon
  have hothers : ¬ wonZone.SoleWriter "pilot" := by
    unfold CellEntry.SoleWriter
    decide +kernel
  have hpriority : pilotWon.ledger.strategyFor wonZone (zoneRequest "pilot" "dock") =
      .priority := by decide +kernel
  obtain ⟨world, haccepts⟩ := pilotWon_accepts
  obtain ⟨outcome, houtcome⟩ : ∃ outcome, (pilotWon.ledger.write pilotWon.world
      (zoneRequest "pilot" "dock")).outcome = .ok outcome := ok_of_toBool (by decide +kernel)
  obtain ⟨-, hkept⟩ := holder_write_updates_iff pilotWon_reached rfl hentry
    heldOutright_wonZone haccepts
  exact ⟨outcome, houtcome, (hkept hothers outcome houtcome).2 hpriority⟩

/-- The pilot holds the zone outright and may set it, and yet cannot update it. -/
theorem holder_write_is_no_update :
    Reached harbourRanks .standard 0 default pilotWon.ledger pilotWon.world ∧
      pilotWon.ledger.entries.get? "environment.zone" = some wonZone ∧
      wonZone.HeldOutright "pilot" ∧
      (∃ world, pilotWon.world.write "environment.zone" "dock" = .ok world) ∧
      ¬ pilotWon.ledger.Updates pilotWon.world (zoneRequest "pilot" "dock") := by
  refine ⟨pilotWon_reached, get?_pilotWon, heldOutright_wonZone, pilotWon_accepts, ?_⟩
  intro hupdates
  have hvalue : (pilotWon.ledger.write pilotWon.world
      (zoneRequest "pilot" "dock")).outcome.toOption.bind (·.value.text?) = some "sea" := by
    decide +kernel
  rw [hupdates.outcome] at hvalue
  exact absurd hvalue (by decide)

end Ledger

end Harbormaster
