import Harbormaster.Proofs.Conflict.Course
import Harbormaster.Proofs.Path.Locations

/-!
Cells and what they are kept by. The ledger finds the entry of a cell by the text of its path,
and never asks which location that is. Since a location has no other text than its own, writes
of one location meet in one entry, however far they are apart, and writes of two locations
never do.
-/

namespace Harbormaster.Ledger

variable {l l' : Ledger} {w w' start : World} {request other : WriteRequest} {entry : CellEntry}
  {outcome : WriteOutcome} {record : ConflictRecord} {asked : List WriteRequest}
  {passed : List (WriteRequest × World)} {path text : String} {tick : Value}

/-- A record names the rules of the writers that the entry lists, and the incoming one. -/
theorem mem_conflictingRules_iff {resolution : Resolution} {rule : String} :
    rule ∈ (l.recordOf path (entry.listing request) resolution).conflictingRules ↔
      ∃ writer ∈ entry.writers ++ [request], writer.ruleId = rule := by
  simp only [recordOf, mem_distinct, CellEntry.listing, List.mem_map]

/-- Records are drawn up from the entry that is found under the path of the write. -/
theorem entry_of_conflict (hend : End l w request l' w' (.ok outcome))
    (hconflict : outcome.conflict = some record) :
    ∃ entry, l.entries.get? request.path = some entry ∧ ¬ entry.SoleWriter request.ruleId ∧
      record = l.recordOf request.path (entry.listing request) (l.resolution entry request) := by
  cases hend with
  | opened | updated => cases hconflict
  | settled hentry hothers =>
    cases hconflict
    exact ⟨_, hentry, hothers, rfl⟩

/-- Writes of one location meet in its entry. -/
theorem Course.writer_of_sameLocation (h : Course (l.beginTick tick) start asked passed l' w')
    {former : WriteRequest × World} (hpassed : former ∈ passed)
    (hsame : Path.SameLocation former.1.path path) :
    ∃ entry, l'.entries.get? path = some entry ∧ former.1 ∈ entry.writers := by
  have hlisted := h.writer_of_passed former hpassed
  rwa [hsame.eq] at hlisted

/-- No other writes do. -/
theorem Course.sameLocation_of_writer (h : Course (l.beginTick tick) start asked passed l' w')
    (hentry : l'.entries.get? path = some entry) :
    ∀ writer ∈ entry.writers, writer ∈ asked ∧ Path.SameLocation writer.path path := by
  intro writer hwriter
  obtain ⟨hasked, rfl⟩ := h.asked_of_writer entry hentry writer hwriter
  obtain ⟨location, hparse⟩ := h.exists_location entry hentry
  exact ⟨hasked, location, hparse, hparse⟩

/-- A write leaves everything as it is that is not of its own location. -/
theorem Course.frame (h : Course (l.beginTick tick) start asked passed l' w')
    {later : Ledger} {world : World} {result : Except Failure WriteOutcome}
    (hend : End l' w' request later world result)
    (hother : ¬ Path.SameLocation text request.path) :
    later.entries.get? text = l'.entries.get? text ∧ world.own? text = w'.own? text ∧
      (Path.SparesBase request.path → world.peek text = w'.peek text) ∧
      later.records.filter (·.path = text) = l'.records.filter (·.path = text) := by
  by_cases htext : text = request.path
  · -- the path of the write is the path of no location, so the write cannot have gone through
    subst htext
    have hnowhere : ∀ location, Path.parse? request.path ≠ some location :=
      fun location hparse => hother ⟨location, hparse, hparse⟩
    have hfresh : ∀ entry, l'.entries.get? request.path ≠ some entry := by
      intro entry hentry
      obtain ⟨location, hparse⟩ := h.exists_location entry hentry
      exact hnowhere location hparse
    cases hend with
    | refused => exact ⟨rfl, rfl, fun _ => rfl, rfl⟩
    | opened _ hbase =>
      obtain ⟨location, hparse, -⟩ := (World.require_bind_eq_ok_iff _ _ _).mp hbase
      exact absurd hparse (hnowhere location)
    | updated hentry | withheld hentry | settled hentry => exact absurd hentry (hfresh _)
  · obtain ⟨hentries, hkeeps, hrecords⟩ := frame_of_end hend htext
    exact ⟨hentries, hkeeps.own, fun hspares => peek_of_end_ne hend hspares htext, hrecords⟩

/-- A write that goes through after one of another rule that has is in conflict with it. -/
theorem Course.conflict_of_sameLocation (h : Course (l.beginTick tick) start asked passed l' w')
    {former : WriteRequest × World} (hpassed : former ∈ passed)
    (hsame : Path.SameLocation former.1.path request.path)
    (hrules : former.1.ruleId ≠ request.ruleId) {later : Ledger} {world : World}
    (hend : End l' w' request later world (.ok outcome)) :
    ∃ record ∈ later.records, outcome.conflict = some record ∧
      former.1.ruleId ∈ record.conflictingRules ∧ request.ruleId ∈ record.conflictingRules := by
  obtain ⟨entry, hentry, hwriter⟩ := h.writer_of_sameLocation hpassed hsame
  have hothers : ¬ entry.SoleWriter request.ruleId := fun hsole => hrules (hsole former.1 hwriter)
  obtain ⟨-, record, hrecord, hrecords⟩ := conflict_of_others hentry hothers hend
  obtain ⟨found, hfound, -, rfl⟩ := entry_of_conflict hend hrecord
  obtain rfl : found = entry := Option.some.inj (hfound.symm.trans hentry)
  refine ⟨_, hrecords ▸ List.mem_concat_self, hrecord, ?_, ?_⟩
  · exact mem_conflictingRules_iff.mpr ⟨former.1, List.mem_append_left _ hwriter, rfl⟩
  · exact mem_conflictingRules_iff.mpr ⟨request, List.mem_concat_self, rfl⟩

/-- A conflict is one among writes of a single location, and there is another rule in it. -/
theorem Course.sameLocation_of_conflict (h : Course (l.beginTick tick) start asked passed l' w')
    {later : Ledger} {world : World} (hend : End l' w' request later world (.ok outcome))
    (hconflict : outcome.conflict = some record) :
    record.path = request.path ∧
      (∃ writer ∈ asked, writer.ruleId ≠ request.ruleId ∧
        Path.SameLocation writer.path request.path) ∧
      ∀ rule ∈ record.conflictingRules, ∃ writer ∈ asked ++ [request],
        writer.ruleId = rule ∧ Path.SameLocation writer.path request.path := by
  obtain ⟨entry, hentry, hothers, rfl⟩ := entry_of_conflict hend hconflict
  have hwriters := h.sameLocation_of_writer hentry
  refine ⟨rfl, ?_, ?_⟩
  · obtain ⟨writer, hwriter, hrule⟩ :
        ∃ writer ∈ entry.writers, writer.ruleId ≠ request.ruleId := by
      simpa [CellEntry.SoleWriter] using hothers
    obtain ⟨hasked, hsame⟩ := hwriters writer hwriter
    exact ⟨writer, hasked, hrule, hsame⟩
  · intro rule hnamed
    obtain ⟨writer, hwriter, hrule⟩ := mem_conflictingRules_iff.mp hnamed
    rcases List.mem_append.mp hwriter with hformer | hnow
    · obtain ⟨hasked, hsame⟩ := hwriters writer hformer
      exact ⟨writer, List.mem_append_left _ hasked, hrule, hsame⟩
    · obtain rfl := List.mem_singleton.mp hnow
      obtain ⟨location, hparse⟩ := h.exists_location entry hentry
      exact ⟨writer, List.mem_append_right _ hnow, hrule, location, hparse, hparse⟩

/-- Texts that are paths and locations correspond one to one, so that a cell is as good as its
key. A write that goes through meets every earlier one of its location that did, and conflicts
with it if another rule made it; it conflicts with nothing else. Whatever is kept of other
locations stays, and so does what they hold; what they show stays as well, unless the write
alters what a record falls back on. -/
theorem cells_are_kept_apart :
    (∀ text path, Path.parse? text = some path ↔ Path.Spells text path) ∧
    (∀ text path, Path.parse? text = some path → path.Worded ∧ path.render = text) ∧
    (∀ path : Path, path.Worded → Path.parse? path.render = some path) ∧
    ∀ (l : Ledger) (tick : Value) (start : World) (requests : List WriteRequest)
      (request : WriteRequest),
      let begun := l.beginTick tick
      let former := begun.writeEach start requests
      let attempt := former.1.write former.2 request
      (∀ other ∈ begun.accepted start requests, Path.SameLocation other.1.path request.path →
        (∃ entry, former.1.entries.get? request.path = some entry ∧ other.1 ∈ entry.writers) ∧
        ∀ outcome, attempt.outcome = .ok outcome → other.1.ruleId ≠ request.ruleId →
          ∃ record ∈ attempt.ledger.records, outcome.conflict = some record ∧
            other.1.ruleId ∈ record.conflictingRules ∧
            request.ruleId ∈ record.conflictingRules) ∧
      (∀ entry, former.1.entries.get? request.path = some entry → ∀ writer ∈ entry.writers,
        writer ∈ requests ∧ Path.SameLocation writer.path request.path) ∧
      (∀ outcome record, attempt.outcome = .ok outcome → outcome.conflict = some record →
        record.path = request.path ∧
        (∃ writer ∈ requests, writer.ruleId ≠ request.ruleId ∧
          Path.SameLocation writer.path request.path) ∧
        ∀ rule ∈ record.conflictingRules, ∃ writer ∈ requests ++ [request],
          writer.ruleId = rule ∧ Path.SameLocation writer.path request.path) ∧
      ∀ text, ¬ Path.SameLocation text request.path →
        attempt.ledger.entries.get? text = former.1.entries.get? text ∧
        attempt.world.own? text = former.2.own? text ∧
        (Path.SparesBase request.path → attempt.world.peek text = former.2.peek text) ∧
        attempt.ledger.records.filter (·.path = text) =
          former.1.records.filter (·.path = text) := by
  refine ⟨fun _ _ => Path.parse?_eq_some_iff,
    fun _ _ hparse => ⟨Path.worded_of_parse? hparse, Path.render_of_parse? hparse⟩,
    fun _ => Path.parse?_render, ?_⟩
  intro l tick start requests request begun former attempt
  have hcourse : Course begun start requests (begun.accepted start requests) former.1 former.2 :=
    course_writeEach begun start requests
  have hend : End former.1 former.2 request attempt.ledger attempt.world attempt.outcome :=
    end_write former.1 former.2 request
  refine ⟨?_, fun entry => hcourse.sameLocation_of_writer, ?_,
    fun text => hcourse.frame hend⟩
  · intro other hother hsame
    refine ⟨hcourse.writer_of_sameLocation hother hsame, ?_⟩
    intro outcome houtcome hrules
    rw [houtcome] at hend
    exact hcourse.conflict_of_sameLocation hother hsame hrules hend
  · intro outcome record houtcome hconflict
    rw [houtcome] at hend
    exact hcourse.sameLocation_of_conflict hend hconflict

def towerSets : List WriteRequest :=
  [zoneRequest "tower" "harbour",
    { zoneRequest "tower" "north" with path := "environment.berth" }]

/-- The pilot meets the tower at the zone, and the berth is none of it. -/
theorem zone_is_kept_apart_from_berth :
    (zoneRequest "tower" "harbour", default) ∈
        ((new .standard).beginTick 0).accepted default towerSets ∧
      let former := ((new .standard).beginTick 0).writeEach default towerSets
      let attempt := former.1.write former.2 (zoneRequest "pilot" "sea")
      (∃ outcome, attempt.outcome = .ok outcome ∧ ∃ record, outcome.conflict = some record ∧
        record.path = "environment.zone" ∧ "tower" ∈ record.conflictingRules ∧
        "pilot" ∈ record.conflictingRules) ∧
      attempt.ledger.entries.get? "environment.berth" =
        former.1.entries.get? "environment.berth" ∧
      attempt.world.peek "environment.berth" = former.2.peek "environment.berth" := by
  have hpassed : (zoneRequest "tower" "harbour", default) ∈
      ((new .standard).beginTick 0).accepted default towerSets :=
    List.mem_append_left _ (List.mem_singleton.mpr rfl)
  have hsame : Path.SameLocation "environment.zone" "environment.zone" :=
    ⟨.environmentField "zone", by decide, by decide⟩
  have hother : ¬ Path.SameLocation "environment.berth" "environment.zone" :=
    fun hsame => absurd hsame.eq (by decide)
  have hkept :=
    cells_are_kept_apart.2.2.2 (new .standard) 0 default towerSets (zoneRequest "pilot" "sea")
  dsimp only at hkept ⊢
  obtain ⟨hmeets, -, hconflict, hframe⟩ := hkept
  obtain ⟨hentry, -, hpeek, -⟩ := hframe "environment.berth" hother
  refine ⟨hpassed, ?_, hentry, hpeek (by decide +kernel)⟩
  generalize hattempt : Ledger.write _ _ _ = attempt at *
  cases houtcome : attempt.outcome with
  | error =>
    have hthrough : attempt.outcome.toBool = true := by
      rw [← hattempt]
      decide +kernel
    rw [houtcome] at hthrough
    cases hthrough
  | ok outcome =>
    obtain ⟨record, -, hrecord, htower, hpilot⟩ :=
      (hmeets _ hpassed hsame).2 outcome houtcome (by decide)
    exact ⟨outcome, rfl, record, hrecord, (hconflict outcome record houtcome hrecord).1, htower,
      hpilot⟩

end Harbormaster.Ledger
