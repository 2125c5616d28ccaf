import Harbormaster.Proofs.Conflict.Review
import Harbormaster.Proofs.Engine.Clock
import Harbormaster.Proofs.Engine.Discipline
import Harbormaster.Proofs.Path.Spelling
import Harbormaster.Proofs.Tick.Parties

/-!
Conflicts as snapshots report them. A snapshot tells of a conflict at four places: among
its conflicts, in the application that brought it about, in the explanations of the rules
that took part in it, and by the cell that it commits. They agree in every tick of every
run. A snapshot is a document, so the targets of actions have gone through a copy by then;
what spells a path is the same afterwards.
-/

namespace Harbormaster

theorem Action.target_stored {a : Action} {path : Path}
    (h : Path.parse? a.target.plainText = some path) : a.stored.target = a.target.stored := by
  apply Record.member_stored
  exact Value.hasForm_of_parse? h

/-- A document keeps which cell an application has changed. -/
theorem Application.cell?_stored {a : Application}
    (h : ∀ text, a.cell? = some text → ∃ path, Path.parse? text = some path) :
    a.stored.cell? = a.cell? := by
  unfold cell? at h ⊢
  have hsuccess : a.stored.success = a.success := rfl
  have hkind : a.stored.action.kind = a.action.kind := rfl
  rw [hsuccess, hkind]
  split
  · rename_i hwrites
    obtain ⟨path, hparse⟩ := h _ (if_pos hwrites)
    have htarget : a.stored.action.target = a.action.target.stored := Action.target_stored hparse
    rw [htarget, Value.plainText_stored hparse]
  · rfl

/-- Whether a rule is explained to have changed the cell of a path. -/
def Explanation.Writes (x : Explanation) (path : String) : Prop :=
  ∃ a ∈ x.actionsApplied, a.cell? = some path

theorem Value.marked_stored_marked (v : Value) : v.marked.stored.marked = v.stored.marked := by
  cases v with
  | missing | absent | boolean | number | text | list | record | native | fallback => rfl

theorem Value.isFinite_of_stored {v : Value} {n : Number} (h : v.stored = .number n) :
    n.isFinite = true := by
  cases v with
  | missing | absent | boolean | text | list | fallback => cases h
  | record members => cases h
  | native thing => cases thing <;> cases h
  | number m =>
    unfold stored at h
    split at h
    · rename_i hfinite
      cases h
      exact hfinite
    · cases h

namespace Engine

/-- A snapshot that records the conflicts of its tick, all of them and no others, and links
them to its explanations. -/
structure RecordsConflicts (s : Snapshot) : Prop where
  /-- A path has a record if two rules have written its cell, and only then. -/
  recorded : ∀ path, (∃ r ∈ s.record.conflicts, r.path = path) ↔
    ∃ x ∈ s.record.explanations, ∃ y ∈ s.record.explanations,
      x.ruleId ≠ y.ruleId ∧ x.Writes path ∧ y.Writes path
  /-- The last record of a path lists all who have written its cell. -/
  complete : ∀ path r, Ledger.lastOn? s.record.conflicts path = some r →
    ∀ x ∈ s.record.explanations, x.Writes path → x.ruleId ∈ r.conflictingRules
  /-- It tells of a value as documents hold it. -/
  finite : ∀ path r, Ledger.lastOn? s.record.conflicts path = some r →
    r.result.finalValue.stored = r.result.finalValue ∧
      ∀ n, r.result.finalValue = .number n → n.isFinite = true
  /-- Records list rules once, in the order of their turns. -/
  ordered : ∀ r ∈ s.record.conflicts, r.conflictingRules.Nodup ∧
    r.conflictingRules.Sublist (s.record.explanations.map (·.ruleId))
  /-- Every record is told of by one application. -/
  named : ∀ r ∈ s.record.conflicts,
    (s.record.explanations.flatMap (·.actionsApplied)).countP (·.conflictId == some r.id) = 1
  /-- Rules are told of the conflicts that they took part in. -/
  linked : ∀ x ∈ s.record.explanations, ∀ r ∈ s.record.conflicts,
    r.id ∈ x.conflictsEncountered ↔ x.ruleId ∈ r.conflictingRules

/-- The last record of a path tells what is committed, absent where the cell is unset. What has
no form in a document neither of them holds. -/
def TellsCommitted (s : Snapshot) : Prop :=
  ∀ path r, Ledger.lastOn? s.record.conflicts path = some r →
    s.state.current path = .ok r.result.finalValue.marked

variable {e : Engine} {s : Snapshot}

/-- The traces of conflicts agree at the end of a tick. -/
theorem books_runTick (hids : (e.rules.map (·.id)).Nodup) :
    e.runTick.1.Books ∧ e.runTick.1.Informed := by
  refine e.moment_runTick.lasting (Tick.lasting_informed e.tickRules) hids ⟨?_, ?_⟩
  · exact ⟨Ledger.lists_begun e.policy _, Ledger.disputes_begun e.policy _, rfl, rfl,
      fun _ _ h => (List.not_mem_nil h).elim⟩
  · exact fun _ hd => (List.not_mem_nil hd).elim

/-- What a snapshot explains are the drafts of the tick. -/
theorem mem_explanations {x : Explanation} (hs : e.tick.snapshot = .ok s) :
    x ∈ s.record.explanations ↔ ∃ d ∈ e.runTick.1.drafts, d.build.stored = x := by
  rw [(snapshot_of_tick hs).1]
  simp [reportOf, TickReport.stored]

/-- Explanations tell of the writes that the applications of the tick tell of. -/
theorem mem_writes_runTick (hbooks : e.runTick.1.Books) (hs : e.tick.snapshot = .ok s)
    {path rule : String} : (path, rule) ∈ e.runTick.1.writes ↔
      ∃ x ∈ s.record.explanations, x.ruleId = rule ∧ x.Writes path := by
  have hcell : ∀ d ∈ e.runTick.1.drafts, ∀ a ∈ d.applications, a.stored.cell? = a.cell? := by
    intro d hd a ha
    refine Application.cell?_stored fun text htext => hbooks.spelled text d.rule.id ?_
    exact Tick.mem_writes.mpr ⟨a, List.mem_flatMap.mpr ⟨d, hd, List.mem_map_of_mem ha⟩, htext⟩
  rw [Tick.mem_writes]
  constructor
  · rintro ⟨a, htold, ha⟩
    obtain ⟨d, hd, htold⟩ := List.mem_flatMap.mp htold
    obtain ⟨a, hmember, heq⟩ := List.mem_map.mp htold
    obtain ⟨rfl, rfl⟩ := Prod.mk.inj heq
    refine ⟨_, (mem_explanations hs).mpr ⟨d, hd, rfl⟩, rfl, a.stored, ?_, ?_⟩
    · exact List.mem_map_of_mem hmember
    · rw [hcell d hd a hmember, ha]
  · rintro ⟨x, hx, rfl, kept, hkept, hwrites⟩
    obtain ⟨d, hd, rfl⟩ := (mem_explanations hs).mp hx
    obtain ⟨a, ha, rfl⟩ := List.mem_map.mp hkept
    refine ⟨a, List.mem_flatMap.mpr ⟨d, hd, List.mem_map_of_mem ha⟩, ?_⟩
    rw [← hcell d hd a ha, hwrites]

theorem applications_of_tick (hs : e.tick.snapshot = .ok s) :
    s.record.explanations.flatMap (·.actionsApplied) =
      e.runTick.1.applications.map Application.stored := by
  rw [(snapshot_of_tick hs).1]
  simp [reportOf, TickReport.stored, Tick.applications, List.flatMap_map, List.map_flatMap,
    Explanation.stored, Draft.build]

theorem conflicts_of_tick (hs : e.tick.snapshot = .ok s) :
    s.record.conflicts = e.runTick.1.stage.ledger.records.map ConflictRecord.stored := by
  rw [(snapshot_of_tick hs).1]
  rfl

theorem lastOn?_stored (records : List ConflictRecord) (path : String) :
    Ledger.lastOn? (records.map ConflictRecord.stored) path =
      (Ledger.lastOn? records path).map ConflictRecord.stored := by
  unfold Ledger.lastOn?
  rw [List.filter_map, List.getLast?_map]
  rfl

/-- Every record of a tick is told of by one application. -/
theorem countP_conflictId (hbooks : e.runTick.1.Books) {r : ConflictRecord}
    (hr : r ∈ e.runTick.1.stage.ledger.records) :
    e.runTick.1.applications.countP (·.conflictId == some r.id) = 1 := by
  have hmember : r.id ∈ e.runTick.1.conflictIds :=
    hbooks.named ▸ List.mem_map_of_mem hr
  have hnodup : e.runTick.1.conflictIds.Nodup := hbooks.named ▸ hbooks.numbered.nodup
  have hcount := List.count_eq_one_of_mem hnodup hmember
  rw [Tick.conflictIds, List.count_filterMap] at hcount
  rw [Tick.applications_eq, List.countP_map]
  exact hcount

theorem exists_made (hs : e.tick.snapshot = .ok s) {r : ConflictRecord}
    (hr : r ∈ s.record.conflicts) :
    ∃ made ∈ e.runTick.1.stage.ledger.records, made.stored = r := by
  rw [conflicts_of_tick hs] at hr
  exact List.mem_map.mp hr

theorem exists_lastMade (hs : e.tick.snapshot = .ok s) {path : String} {r : ConflictRecord}
    (hr : Ledger.lastOn? s.record.conflicts path = some r) :
    ∃ last, Ledger.lastOn? e.runTick.1.stage.ledger.records path = some last ∧
      last.stored = r := by
  rw [conflicts_of_tick hs, lastOn?_stored] at hr
  exact Option.map_eq_some_iff.mp hr

/-- Where rules keep to ordinary cells the last record of a path tells what is committed. -/
theorem tellsCommitted_of_tick (hs : e.tick.snapshot = .ok s) (hbooks : e.runTick.1.Books)
    (hend : e.runTick.1.stage.InOrder e.runTick.2.world)
    (howns : ∀ text, Path.Ordinary text → e.runTick.2.world.Owns text) : TellsCommitted s := by
  intro path r hr
  obtain ⟨last, hlast, rfl⟩ := exists_lastMade hs hr
  obtain ⟨hrecord, rfl⟩ := Ledger.mem_of_lastOn? hlast
  have hordinary := hend.cells last hrecord
  obtain ⟨-, entry, hentry, hvalue⟩ := hbooks.disputes.last last.path last hlast
  have hnow : (finalWorld e.runTick.1).peek last.path = .ok entry.value :=
    hend.tracks.value last.path entry hentry
  have hfinal : (finalWorld e.runTick.1).Distinct :=
    ⟨hend.distinct.fields, hend.distinct.environment, hend.distinct.metrics⟩
  have hholds : (finalWorld e.runTick.1).Owns last.path :=
    hend.tracks.owns _ (howns _ hordinary)
  have hcommitted := hfinal.reflects_stored.peek_eq hordinary hholds hnow
  rw [(snapshot_of_tick hs).2, World.current, hcommitted]
  change Except.ok entry.value.stored.marked = .ok last.result.finalValue.stored.marked
  rw [hvalue, Value.marked_stored_marked]

/-- A path has a record exactly if two rules are explained to have written its cell. -/
theorem exists_record_iff (hs : e.tick.snapshot = .ok s) (hbooks : e.runTick.1.Books)
    (path : String) : (∃ r ∈ s.record.conflicts, r.path = path) ↔
      ∃ x ∈ s.record.explanations, ∃ y ∈ s.record.explanations,
        x.ruleId ≠ y.ruleId ∧ x.Writes path ∧ y.Writes path := by
  have hwrites : ∀ {path rule}, (path, rule) ∈ e.runTick.1.writes ↔
      ∃ x ∈ s.record.explanations, x.ruleId = rule ∧ x.Writes path := mem_writes_runTick hbooks hs
  constructor
  · rintro ⟨_, hr, rfl⟩
    obtain ⟨made, hmade, rfl⟩ := exists_made hs hr
    obtain ⟨rule, other, hne, hrule, hother⟩ := hbooks.disputes.disputed made hmade
    obtain ⟨x, hx, rfl, hxwrites⟩ := hwrites.mp hrule
    obtain ⟨y, hy, rfl, hywrites⟩ := hwrites.mp hother
    exact ⟨x, hx, y, hy, hne, hxwrites, hywrites⟩
  · rintro ⟨x, hx, y, hy, hne, hxwrites, hywrites⟩
    by_contra hnone
    refine hne (hbooks.disputes.calm path ?_ _ _ (hwrites.mpr ⟨x, hx, rfl, hxwrites⟩)
      (hwrites.mpr ⟨y, hy, rfl, hywrites⟩))
    intro made hmade hpath
    refine hnone ⟨made.stored, ?_, hpath⟩
    rw [conflicts_of_tick hs]
    exact List.mem_map_of_mem hmade

theorem recordsConflicts_of_tick (hs : e.tick.snapshot = .ok s)
    (hids : (e.rules.map (·.id)).Nodup) : RecordsConflicts s := by
  obtain ⟨hbooks, hinformed⟩ := books_runTick hids
  have horder : s.record.explanations.map (·.ruleId) = e.runTick.1.evaluated := by
    rw [(snapshot_of_tick hs).1]
    simp [reportOf, TickReport.stored, Tick.evaluated, Function.comp_def, Explanation.stored,
      Draft.build]
  refine ⟨exists_record_iff hs hbooks, ?_, ?_, ?_, ?_, ?_⟩
  · intro path r hr x hx hpath
    obtain ⟨last, hlast, rfl⟩ := exists_lastMade hs hr
    exact (hbooks.disputes.last path last hlast).1 _
      ((mem_writes_runTick hbooks hs).mpr ⟨x, hx, rfl, hpath⟩)
  · intro path r hr
    obtain ⟨last, hlast, rfl⟩ := exists_lastMade hs hr
    exact ⟨Value.stored_stored _, fun n hn => Value.isFinite_of_stored hn⟩
  · intro r hr
    obtain ⟨made, hmade, rfl⟩ := exists_made hs hr
    rw [horder]
    exact hbooks.disputes.parties made hmade
  · intro r hr
    obtain ⟨made, hmade, rfl⟩ := exists_made hs hr
    rw [applications_of_tick hs, List.countP_map]
    exact countP_conflictId (r := made) hbooks hmade
  · intro x hx r hr
    obtain ⟨d, hd, rfl⟩ := (mem_explanations hs).mp hx
    obtain ⟨made, hmade, rfl⟩ := exists_made hs hr
    refine (hinformed d hd made.id).trans ⟨?_, fun hlisted => ⟨made, hmade, rfl, hlisted⟩⟩
    rintro ⟨other, hother, hsame, hlisted⟩
    obtain rfl : other = made :=
      List.inj_on_of_nodup_map hbooks.numbered.nodup hother hmade hsame
    exact hlisted

variable {initial : World} {rules : RuleSet} {options : EngineOptions} {notice : Notice}

theorem owns_of_docked {text : String} (htext : Path.Ordinary text) :
    disputedEngine.runTick.2.world.Owns text := by
  have hsolid : disputedEngine.runTick.2.world.Solid := by
    refine ⟨?_, ⟨List.nodup_singleton _, rfl⟩, ⟨List.nodup_nil, rfl⟩⟩
    intro name a ha
    cases ha
  exact hsolid.owns htext

/-- Two rules that dispute what the environment falls back on. -/
def founded : RuleSet :=
  ⟨[setting "pilot" "environment.__proto__" 5, setting "tower" "environment.__proto__" 5],
    .standard⟩

def foundedEngine : Engine :=
  { disputedEngine with
    rules := Rule.byPriority founded.rules
    policy := founded.policy
    store := ⟨(default : World).stored, []⟩ }

end Engine

end Harbormaster
