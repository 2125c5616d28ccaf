import Harbormaster.Proofs.Action.Footprint
import Harbormaster.Proofs.Conflict.Atomicity
import Harbormaster.Proofs.Conflict.Books
import Harbormaster.Proofs.Rule.Order
import Harbormaster.Proofs.Tick.Coverage
import Harbormaster.Proofs.Tick.Steps

/-!
Manual review is final for the tick. Once a conflict over a cell waits for review the
cell lists writes of two rules, so every further write is a conflict again, and one
that is reviewed whatever strategy it asks for. Together with the books of the ledger
this keeps the cell at the value that it had before the tick. That this value is
accepted again by its cell is not needed: a write that is refused changes nothing.
-/

namespace Harbormaster

namespace Verdict

variable {entry : CellEntry} {incoming : WriteRequest} {verdict : Verdict}

theorem merged_of_combine {scalar : Option Number} {range : Option ClampRange}
    (h : combine entry incoming scalar range = .ok verdict) :
    ∃ value, verdict = .merged value scalar range := by
  unfold combine at h
  split at h
  · cases h
  · split at h
    · cases h
      exact ⟨_, rfl⟩
    · cases h
      exact ⟨_, rfl⟩

/-- A merge that is possible merges. -/
theorem merged_of_merge (h : merge entry incoming = .ok verdict) :
    ∃ value scalar range, verdict = .merged value scalar range := by
  unfold merge at h
  split at h
  · split at h
    · obtain ⟨value, heq⟩ := merged_of_combine h
      exact ⟨value, _, _, heq⟩
    · cases h
  · split at h
    · obtain ⟨value, heq⟩ := merged_of_combine h
      exact ⟨value, _, _, heq⟩
    · cases h

theorem byPriority_ne_reverted (entry : CellEntry) (incoming : WriteRequest) :
    byPriority entry incoming ≠ .reverted := by
  unfold byPriority
  split <;> exact Verdict.noConfusion

end Verdict

/-- Only a manual review takes a cell back. -/
theorem Strategy.manualReview_of_reverted {strategy : Strategy} {entry : CellEntry}
    {incoming : WriteRequest} (h : (strategy.judge entry incoming).verdict = .reverted) :
    strategy = .manualReview := by
  cases strategy with
  | manualReview => rfl
  | priority => exact absurd h (Verdict.byPriority_ne_reverted entry incoming)
  | lastWriteWins => cases h
  | merge =>
    unfold judge at h
    cases hmerge : Verdict.merge entry incoming with
    | error fault =>
      simp only [hmerge] at h
      exact absurd h (Verdict.byPriority_ne_reverted entry incoming)
    | ok verdict =>
      obtain ⟨_, _, _, rfl⟩ := Verdict.merged_of_merge hmerge
      simp only [hmerge] at h
      cases h

structure ConflictRecord.AwaitsReview (r : ConflictRecord) : Prop where
  strategy : r.strategy = .manualReview
  unresolved : r.resolved = false
  unkept : r.result.keptRule = none

namespace Ledger

variable {l l' : Ledger} {start w w' : World} {request : WriteRequest} {entry : CellEntry}

theorem resolution_of_manualReview (h : l.strategyFor entry request = .manualReview) :
    l.resolution entry request = .review entry := by
  rw [resolution, h]
  rfl

theorem resolution_of_underReview (h : entry.underReview = true) :
    l.resolution entry request = .review entry := by
  apply resolution_of_manualReview
  simp [strategyFor, calledFor?, h]

/-- Only a review leaves a conflict unresolved. -/
theorem resolution_of_unresolved (h : (l.resolution entry request).resolved = false) :
    l.resolution entry request = .review entry := by
  apply resolution_of_manualReview
  refine @Strategy.manualReview_of_reverted _ entry request ?_
  simp only [resolution, Strategy.resolve] at h
  generalize (l.strategyFor entry request).judge entry request = judgement at h ⊢
  obtain ⟨verdict, strategy, obstacle⟩ := judgement
  have hresolved : (Resolution.ofVerdict strategy entry request verdict).resolved = false := by
    cases obstacle with
    | none | some => exact h
  cases verdict with
  | taken | kept | merged => cases hresolved
  | reverted => rfl

theorem awaitsReview_recordOf {path : String} {listed : CellEntry}
    (h : l.resolution entry request = .review entry) :
    (l.recordOf path listed (l.resolution entry request)).AwaitsReview := by
  rw [h]
  exact ⟨rfl, rfl, rfl⟩

structure Reviews (l : Ledger) : Prop where
  /-- A cell under review has the value that it had before the tick, and more than
  one rule has written it. -/
  entries : ∀ text entry, l.entries.get? text = some entry → entry.underReview = true →
    entry.value = entry.base ∧ ∀ rule, ¬ entry.SoleWriter rule
  /-- The cell of a conflict that was not resolved is under review. -/
  records : ∀ r ∈ l.records, r.resolved = false → r.AwaitsReview ∧
    ∃ entry, l.entries.get? r.path = some entry ∧ entry.underReview = true
  /-- What follows an unresolved conflict on its cell waits for review as well. -/
  final : l.records.Pairwise fun r r' => r.resolved = false → r'.path = r.path → r'.AwaitsReview

theorem reviews_begun (policy : Policy) (tick : Value) : ((new policy).beginTick tick).Reviews := by
  refine ⟨?_, ?_, .nil⟩
  · intro text entry hentry
    cases hentry
  · intro r hr
    cases hr

theorem not_soleWriter_listing {rule : String} (h : ¬ entry.SoleWriter rule) :
    ¬ (entry.listing request).SoleWriter rule := by
  intro hsole
  exact h fun writer hwriter => hsole writer (List.mem_append_left _ hwriter)

/-- Whoever writes a cell that another rule has written, nobody is its sole writer
any more. -/
theorem not_soleWriter_of_others (h : ¬ entry.SoleWriter request.ruleId) (rule : String) :
    ¬ (entry.listing request).SoleWriter rule := by
  intro hsole
  have hrule : request.ruleId = rule := hsole request (by simp [CellEntry.listing])
  rw [← hrule] at hsole
  exact not_soleWriter_listing h hsole

/-- A new entry keeps the ledger in order where it is so itself and does not end a
review. -/
theorem Reviews.put {path : String} (h : l.Reviews)
    (hentry : entry.underReview = true →
      entry.value = entry.base ∧ ∀ rule, ¬ entry.SoleWriter rule)
    (hstays : ∀ former, l.entries.get? path = some former → former.underReview = true →
      entry.underReview = true) : (l.put path entry).Reviews := by
  refine ⟨?_, ?_, h.final⟩
  · intro text held hheld
    rw [get?_put] at hheld
    split at hheld
    · cases hheld
      exact hentry
    · exact h.entries text held hheld
  · intro r hr hopen
    obtain ⟨hawaits, former, hformer, hreview⟩ := h.records r hr hopen
    refine ⟨hawaits, ?_⟩
    rw [get?_put]
    split
    · rename_i hpath
      exact ⟨entry, rfl, hstays former (hpath ▸ hformer) hreview⟩
    · exact ⟨former, hformer, hreview⟩

/-- A conflict on a cell under review is reviewed, and one that is reviewed puts its
cell under review. -/
theorem Reviews.settled (h : l.Reviews) (hentry : l.entries.get? request.path = some entry)
    (hothers : ¬ entry.SoleWriter request.ruleId) : (l.settled entry request).Reviews := by
  have hput : (l.put request.path
      (settledEntry (entry.listing request) (l.resolution entry request))).Reviews := by
    apply h.put
    · intro hreview
      have hresolution : l.resolution entry request = .review entry := by
        rcases Bool.or_eq_true_iff.mp hreview with hbefore | hnow
        · exact resolution_of_underReview hbefore
        · exact resolution_of_unresolved (by simpa using hnow)
      refine ⟨?_, not_soleWriter_of_others hothers⟩
      rw [hresolution]
      rfl
    · intro former hformer hreview
      rw [hentry] at hformer
      cases hformer
      simp [settledEntry, CellEntry.listing, hreview]
  refine ⟨hput.entries, ?_, ?_⟩
  · intro r hr hopen
    rcases List.mem_append.mp hr with hformer | hlast
    · exact hput.records r hformer hopen
    · rw [List.mem_singleton.mp hlast] at hopen ⊢
      have hresolution := resolution_of_unresolved hopen
      refine ⟨awaitsReview_recordOf hresolution,
        settledEntry (entry.listing request) (l.resolution entry request), ?_, ?_⟩
      · simp only [Ledger.settled, Ledger.put, Record.get?_set, recordOf, if_true]
      · simp [settledEntry, hresolution, Resolution.review]
  · refine List.pairwise_append.mpr ⟨h.final, List.pairwise_singleton _ _, ?_⟩
    intro r hr r' hr' hopen hpath
    rw [List.mem_singleton.mp hr'] at hpath ⊢
    obtain ⟨-, former, hformer, hreview⟩ := h.records r hr hopen
    have hsame : request.path = r.path := hpath
    rw [← hsame, hentry] at hformer
    cases hformer
    exact awaitsReview_recordOf (resolution_of_underReview hreview)

theorem Reviews.of_end {result : Except Failure WriteOutcome} (h : l.Reviews)
    (hend : End l w request l' w' result) : l'.Reviews := by
  cases hend with
  | refused => exact h
  | opened hfresh =>
    apply h.put
    · intro hreview
      cases hreview
    · intro former hformer
      rw [hfresh] at hformer
      cases hformer
  | updated hentry hsole =>
    -- a cell of one writer is not under review
    have hcalm : ∀ {former}, l.entries.get? request.path = some former →
        former.underReview = true → False := by
      intro former hformer hreview
      rw [hentry] at hformer
      cases hformer
      exact (h.entries _ _ hentry hreview).2 _ hsole
    apply h.put
    · intro hreview
      exact (hcalm hentry hreview).elim
    · intro former hformer hreview
      exact (hcalm hformer hreview).elim
  | withheld hentry =>
    apply h.put
    · intro hreview
      obtain ⟨hvalue, hothers⟩ := h.entries _ _ hentry hreview
      exact ⟨hvalue, fun rule => not_soleWriter_listing (hothers rule)⟩
    · intro former hformer hreview
      rw [hentry] at hformer
      cases hformer
      exact hreview
  | settled hentry hothers => exact h.settled hentry hothers

/-- A cell with an unresolved conflict shows what it showed before the tick. -/
theorem Reviews.peek_eq (h : l.Reviews) (htracks : l.Tracks start w) {r : ConflictRecord}
    (hr : r ∈ l.records) (hopen : r.resolved = false) :
    ∃ base, start.peek r.path = .ok base ∧ w.peek r.path = .ok base := by
  obtain ⟨-, entry, hentry, hreview⟩ := h.records r hr hopen
  refine ⟨entry.base, htracks.base _ _ hentry, ?_⟩
  rw [← (h.entries _ _ hentry hreview).1]
  exact htracks.value _ _ hentry

/-- No write takes a conflict off the records. -/
theorem records_of_end {result : Except Failure WriteOutcome}
    (hend : End l w request l' w' result) : l.records ⊆ l'.records := by
  cases hend with
  | refused | opened | updated | withheld => exact List.Subset.refl _
  | settled => exact List.subset_append_left _ _

/-- A write adds conflicts over its own cell only. -/
theorem record_of_end {result : Except Failure WriteOutcome}
    (hend : End l w request l' w' result) {r : ConflictRecord} (hr : r ∈ l'.records) :
    r ∈ l.records ∨ r.path = request.path := by
  cases hend with
  | refused | opened | updated | withheld => exact .inl hr
  | settled =>
    rcases List.mem_append.mp hr with hformer | hnow
    · exact .inl hformer
    · rw [List.mem_singleton.mp hnow]
      exact .inr rfl

end Ledger

namespace Stage

variable {s s' : Stage} {known : String → Bool} {rule : Rule} {action : Action} {start : World}

/-- What holds throughout a tick that began with `start`. -/
structure InOrder (start : World) (s : Stage) : Prop where
  tracks : s.ledger.Tracks start s.world
  reviews : s.ledger.Reviews
  distinct : s.world.Distinct
  cells : ∀ r ∈ s.ledger.records, Path.Ordinary r.path

theorem InOrder.step (h : s.InOrder start) (hordinary : action.Ordinary)
    (hstart : ∀ text, Path.Ordinary text → start.Owns text)
    (hstep : Step s known rule action s') : s'.InOrder start := by
  cases hstep with
  | nothing => exact h
  | wrote hdeed hend =>
    cases Deed.of_ofAction hdeed with
    | write hkind =>
      have htarget := hordinary.target hkind
      have howns : start.Owns action.target.plainText := hstart _ htarget
      refine ⟨h.tracks.of_end howns hend, h.reviews.of_end hend,
        Ledger.distinct_of_end h.distinct hend, ?_⟩
      intro r hr
      rcases Ledger.record_of_end hend hr with hformer | hpath
      · exact h.cells r hformer
      · exact hpath ▸ htarget
  | spawned =>
    refine ⟨h.tracks.congr (fun _ => rfl) (fun _ => rfl) (fun _ => rfl) fun _ => rfl,
      h.reviews, ?_, h.cells⟩
    exact ⟨h.distinct.fields, h.distinct.environment, h.distinct.metrics⟩

theorem InOrder.after (h : s.InOrder start)
    (hstart : ∀ text, Path.Ordinary text → start.Owns text) {steps : List (Rule × Action)}
    (hsteps : ∀ step ∈ steps, step.2.Ordinary) : (s.after known steps).InOrder start :=
  after_preserves_of_mem
    (fun step hstep _ _ hbefore hnext => hbefore.step (hsteps step hstep) hstart hnext) h

theorem records_after (s : Stage) (steps : List (Rule × Action)) :
    s.ledger.records ⊆ (s.after known steps).ledger.records := by
  refine after_preserves (P := fun s' => s.ledger.records ⊆ s'.ledger.records) ?_
    (List.Subset.refl _) steps
  intro s₁ s₂ _ _ hbefore hstep
  cases hstep with
  | nothing | spawned => exact hbefore
  | wrote _ hend => exact List.Subset.trans hbefore (Ledger.records_of_end hend)

end Stage

namespace Engine

variable {e : Engine} {s : Snapshot}

theorem inOrder_start (hdistinct : e.runTick.2.world.Distinct) :
    e.start.InOrder e.runTick.2.world := by
  refine ⟨?_, Ledger.reviews_begun _ _, ?_, fun _ hnone => nomatch hnone⟩
  · exact (Ledger.tracks_begun _ _ e.start.world).congr (fun _ => rfl) (fun _ => rfl)
      (fun _ => rfl) fun _ => rfl
  · exact ⟨hdistinct.fields, hdistinct.environment, hdistinct.metrics⟩

/-- Rules that keep to ordinary cells leave the books of a tick in order. -/
theorem inOrder_runTick (hdistinct : e.runTick.2.world.Distinct)
    (howns : ∀ text, Path.Ordinary text → e.runTick.2.world.Owns text)
    (hrules : ∀ rule ∈ e.rules, rule.Ordinary) :
    e.runTick.1.stage.InOrder e.runTick.2.world := by
  obtain ⟨steps, hsteps, hstage⟩ := stage_runTick e
  rw [hstage]
  refine (inOrder_start hdistinct).after howns fun step hstep => ?_
  exact hrules step.1 (hsteps step hstep).1 step.2 (hsteps step hstep).2

def disputing (id : String) (priority : Number) (zone : Value) : Rule :=
  { Stage.ranked id priority with actions := [Stage.zoning zone] }

def disputed : RuleSet :=
  ⟨[disputing "pilot" 2 "sea", disputing "tower" 1 "harbour"], ⟨.manualReview, [], []⟩⟩

def docked : World := { (default : World) with environment := .ofList [("zone", "dock")] }

def disputedEngine : Engine :=
  { rules := Rule.byPriority disputed.rules
    maxChainDepth := standardChainDepth
    policy := disputed.policy
    translator := .builtIn
    store := ⟨docked.stored, []⟩
    bus := (EventBus.new .tick).load ∅
    pending := [] }

theorem rules_disputedEngine : disputedEngine.rules = disputed.rules := by
  have hnumbers : ∀ rule ∈ disputed.rules, rule.rank.isNaN = false := by decide +kernel
  have hsorted : disputed.rules.Pairwise fun a b => b.outranks a = false := by decide +kernel
  unfold disputedEngine
  rw [Rule.byPriority_eq_self hnumbers hsorted]

theorem records_disputedEngine :
    disputedEngine.runTick.1.stage.ledger.records.any
      (fun r => r.path = "environment.zone" && !r.resolved) = true := by
  unfold runTick
  dsimp only
  rw [rules_disputedEngine, Tick.drain_eq_turns (by decide)]
  decide +kernel

/-- A rule that gives the tug a list to fall back on, and two rules that dispute its length. -/
def lengthened : RuleSet :=
  ⟨[Stage.towing "buoy" 3 "__proto__" (.list [1, 2]), Stage.towing "pilot" 2 "length" 7,
    Stage.towing "tower" 1 "length" 6], ⟨.manualReview, [], []⟩⟩

def lengthenedEngine : Engine :=
  { disputedEngine with
    rules := Rule.byPriority lengthened.rules
    store := ⟨Stage.tugged.stored, []⟩ }

end Engine

end Harbormaster
