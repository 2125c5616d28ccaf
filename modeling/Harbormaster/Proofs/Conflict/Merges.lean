import Harbormaster.Proofs.Conflict.Ends
import Harbormaster.Proofs.Conflict.Ranges
import Harbormaster.Proofs.World.Texts

/-!
Merged writes come to the same value in every order. While writes of a cell are
merged, the ledger holds the number that was written, if one was, the meet of the
ranges so far, and a value that is the number or else the former value clamped into
that meet. The meet does not depend on the order, and so the value does not either.
At most one of the writes may be a number of its own: numbers are averaged one after
the other, which does depend on their order.
-/

namespace Harbormaster

namespace WriteRequest

/-- A write as it is drawn up now: one that clamps is for the value that its cell
holds, clamped into its range. -/
def drawn (request : WriteRequest) (w : World) : WriteRequest :=
  match request.range, w.peek request.path with
  | some range, .ok (.number held) => { request with value := .number (range.clamp held) }
  | _, _ => request

theorem drawn_of_number {request : WriteRequest} {w : World} (h : request.range = none) :
    request.drawn w = request := by
  unfold drawn
  rw [h]

theorem drawn_of_range {request : WriteRequest} {w : World} {range : ClampRange} {held : Number}
    (h : request.range = some range) (hheld : w.peek request.path = .ok (.number held)) :
    request.drawn w = { request with value := .number (range.clamp held) } := by
  unfold drawn
  rw [h, hheld]

theorem drawn_eq (request : WriteRequest) (w : World) :
    ∃ value, request.drawn w = { request with value } := by
  unfold drawn
  split
  · exact ⟨_, rfl⟩
  · exact ⟨_, rfl⟩

theorem drawn_range (request : WriteRequest) (w : World) :
    (request.drawn w).range = request.range := by
  obtain ⟨_, heq⟩ := request.drawn_eq w
  rw [heq]

theorem drawn_path (request : WriteRequest) (w : World) :
    (request.drawn w).path = request.path := by
  obtain ⟨_, heq⟩ := request.drawn_eq w
  rw [heq]

theorem drawn_ruleId (request : WriteRequest) (w : World) :
    (request.drawn w).ruleId = request.ruleId := by
  obtain ⟨_, heq⟩ := request.drawn_eq w
  rw [heq]

end WriteRequest

namespace Ledger

/-- Writes one after the other, each drawn up when its turn has come. -/
def writeAll (l : Ledger) (w : World) : List WriteRequest → Ledger × World
  | [] => (l, w)
  | request :: rest =>
    let attempt := l.write w (request.drawn w)
    attempt.ledger.writeAll attempt.world rest

/-- Whether every conflict among writes, one after the other, calls for a merge. -/
def Merges (l : Ledger) (w : World) : List WriteRequest → Prop
  | [] => True
  | request :: rest =>
    (∀ entry, l.entries.get? request.path = some entry → entry.underReview = false →
      l.strategyFor entry (request.drawn w) = .merge) ∧
    (l.write w (request.drawn w)).ledger.Merges (l.write w (request.drawn w)).world rest

end Ledger

/-- Writes of one cell by different rules, of which one at most is a finite number
and the others clamp into ranges that have a number in common. -/
structure Mergeable (path : String) (family : List WriteRequest) : Prop where
  path : ∀ request ∈ family, request.path = path
  rules : (family.map (·.ruleId)).Nodup
  numeric : ∀ request ∈ family, request.range = none →
    ∃ n : Number, request.value = .number n ∧ n.isFinite = true
  single : (family.filterMap (·.scalar?)).length ≤ 1
  ranges : ∀ range ∈ family.filterMap (·.range), range.Finite
  common : ∃ point : Number, point.isFinite = true ∧
    ∀ range ∈ family.filterMap (·.range), range.Holds point

/-- The number that is clamped when writes are merged: the one that was written, or
else the one that was there before. -/
def mergeSource (base : Number) (family : List WriteRequest) : Number :=
  (family.findSome? (·.scalar?)).getD base

theorem mergeSource_isFinite {path : String} {base : Number} {family : List WriteRequest}
    (h : Mergeable path family) (hbase : base.isFinite = true) :
    (mergeSource base family).isFinite = true := by
  unfold mergeSource
  cases hfound : family.findSome? (·.scalar?) with
  | none => exact hbase
  | some n =>
    obtain ⟨request, hrequest, hscalar⟩ := List.exists_of_findSome?_eq_some hfound
    unfold WriteRequest.scalar? at hscalar
    split at hscalar
    · cases hscalar
    · rename_i hrange
      obtain ⟨m, hvalue, hm⟩ := h.numeric request hrequest (by simpa using hrange)
      rw [hvalue, Value.number?, Option.some.injEq] at hscalar
      rwa [← hscalar]

/-- In which order the writes come does not matter for what is clamped. -/
theorem mergeSource_perm {path : String} {base : Number} {family order : List WriteRequest}
    (h : Mergeable path family) (hperm : order.Perm family) :
    mergeSource base order = mergeSource base family := by
  have hscalars := hperm.filterMap (·.scalar?)
  have hsame : order.filterMap (·.scalar?) = family.filterMap (·.scalar?) := by
    have hsingle := h.single
    generalize family.filterMap (·.scalar?) = scalars at hscalars hsingle
    cases scalars with
    | nil => exact hscalars.eq_nil
    | cons n rest =>
      have hrest : rest = [] := List.length_eq_zero_iff.mp (by simpa using hsingle)
      subst hrest
      exact List.perm_singleton.mp hscalars
  unfold mergeSource
  rw [← List.head?_filterMap, ← List.head?_filterMap, hsame]

def ClampRange.clampInto (range : Option ClampRange) (n : Number) : Number :=
  match range with
  | some bounds => bounds.clamp n
  | none => n

def ClampRange.Meets (range : Option ClampRange) (ranges : List ClampRange) : Prop :=
  match range with
  | some bounds => IsMeet ranges bounds
  | none => ranges = []

def CellEntry.named (entry : CellEntry) : List String :=
  if !entry.mergedRules.isEmpty then entry.mergedRules
  else (entry.holder.filter (!·.isEmpty)).toList

structure CellEntry.Merged (base : Number) (done : List WriteRequest) (entry : CellEntry) :
    Prop where
  calm : entry.underReview = false
  scalar : entry.scalar = done.findSome? (·.scalar?)
  range : ClampRange.Meets entry.range (done.filterMap (·.range))
  value : entry.value = .number (ClampRange.clampInto entry.range (mergeSource base done))
  writers : entry.writers.map (·.ruleId) = done.map (·.ruleId)
  named : (∀ first ∈ done.head?, first.ruleId ≠ "") → entry.named = done.map (·.ruleId)

section Verdict

variable {path : String} {base : Number} {done : List WriteRequest}
  {request incoming : WriteRequest} {entry : CellEntry}

theorem scalar?_of_range {range : ClampRange} (h : request.range = some range) :
    request.scalar? = none := by
  simp [WriteRequest.scalar?, h]

theorem scalar?_of_number {n : Number} (h : request.range = none)
    (hvalue : request.value = .number n) : request.scalar? = some n := by
  simp [WriteRequest.scalar?, h, hvalue, Value.number?]

theorem Mergeable.former {rest : List WriteRequest} (h : Mergeable path (done ++ rest)) :
    Mergeable path done := by
  refine ⟨?_, ?_, ?_, ?_, ?_, ?_⟩
  · exact fun request hrequest => h.path request (List.mem_append_left _ hrequest)
  · have hrules := h.rules
    rw [List.map_append] at hrules
    exact hrules.of_append_left
  · exact fun request hrequest => h.numeric request (List.mem_append_left _ hrequest)
  · have hsingle := h.single
    rw [List.filterMap_append, List.length_append] at hsingle
    omega
  · intro range hrange
    apply h.ranges
    rw [List.filterMap_append]
    exact List.mem_append_left _ hrange
  · obtain ⟨point, hpoint, hall⟩ := h.common
    refine ⟨point, hpoint, fun range hrange => hall range ?_⟩
    rw [List.filterMap_append]
    exact List.mem_append_left _ hrange

/-- What a merge clamps when there is no number of its own was clamped before, which
does not matter to the narrower range. -/
theorem CellEntry.Merged.source (h : entry.Merged base done) :
    ∃ source, entry.scalar.or entry.value.number? = some source ∧
      (source = mergeSource base done ∨
        source = ClampRange.clampInto entry.range (mergeSource base done)) := by
  rw [h.scalar, h.value]
  cases hfound : done.findSome? (·.scalar?) with
  | none => exact ⟨_, rfl, .inr rfl⟩
  | some n => exact ⟨n, rfl, .inl (by simp [mergeSource, hfound])⟩

/-- A clamping write narrows the range. -/
theorem merge_of_range {added : ClampRange} (hfamily : Mergeable path (done ++ [request]))
    (hbase : base.isFinite = true) (h : entry.Merged base done)
    (hadded : request.range = some added) (hincoming : incoming.range = some added) :
    ∃ range, Verdict.merge entry incoming =
        .ok (.merged (range.clamp (mergeSource base done)) entry.scalar (some range)) ∧
      ClampRange.IsMeet ((done ++ [request]).filterMap (·.range)) range := by
  obtain ⟨point, hpoint, hall⟩ := hfamily.common
  have hranges : (done ++ [request]).filterMap (·.range) = done.filterMap (·.range) ++ [added] := by
    simp [List.filterMap_append, hadded]
  have hfinite := hfamily.ranges
  rw [hranges] at hall hfinite ⊢
  have haddedFinite : added.Finite := hfinite added (by simp)
  have haddedHolds : added.Holds point := hall added (by simp)
  have hformer : ∀ range ∈ done.filterMap (·.range), range.Holds point :=
    fun range hrange => hall range (List.mem_append_left _ hrange)
  have hsource := mergeSource_isFinite hfamily.former hbase
  obtain ⟨source, hscalar, hclamped⟩ := h.source
  have hmeets := h.range
  cases hheld : entry.range with
  | none =>
    rw [hheld] at hmeets hclamped
    have hnone : done.filterMap (·.range) = [] := hmeets
    have hsame : source = mergeSource base done := by
      rcases hclamped with hsame | hsame <;> exact hsame
    refine ⟨added, ?_, ?_⟩
    · have hopen := haddedHolds.not_reversed haddedFinite hpoint
      simp [Verdict.merge, hincoming, Verdict.mergedRange, hheld, hopen, Verdict.combine, hscalar,
        hsame]
    · rw [hnone]
      exact ClampRange.isMeet_singleton haddedFinite hpoint haddedHolds
  | some held =>
    rw [hheld] at hmeets hclamped
    have hmeet : ClampRange.IsMeet (done.filterMap (·.range)) held := hmeets
    have hboth : ClampRange.IsMeet (done.filterMap (·.range) ++ [added]) (held.meet added) :=
      hmeet.append haddedFinite hpoint hformer haddedHolds
    have hpointHeld : (held.meet added).Holds point := (hboth.holds point hpoint).mpr hall
    have hsame :
        (held.meet added).clamp source = (held.meet added).clamp (mergeSource base done) := by
      rcases hclamped with rfl | rfl
      · rfl
      · exact ClampRange.clamp_meet_clamp hmeet.finite haddedFinite hsource hpoint hpointHeld
    refine ⟨held.meet added, ?_, hboth⟩
    have hopen := hpointHeld.not_reversed hboth.finite hpoint
    simp [Verdict.merge, hincoming, Verdict.mergedRange, hheld, hopen, Verdict.combine, hscalar,
      hsame]

/-- Where a family has no ranges, each of its writes is a number. -/
theorem Mergeable.scalars_ne_nil (hfamily : Mergeable path done) (hdone : done ≠ [])
    (hranges : done.filterMap (·.range) = []) : done.filterMap (·.scalar?) ≠ [] := by
  obtain ⟨request, hrequest⟩ := List.exists_mem_of_ne_nil done hdone
  have hnumber : request.range = none := List.filterMap_eq_nil_iff.mp hranges request hrequest
  obtain ⟨n, hvalue, -⟩ := hfamily.numeric request hrequest hnumber
  intro hnone
  have hscalar := List.filterMap_eq_nil_iff.mp hnone request hrequest
  rw [scalar?_of_number hnumber hvalue] at hscalar
  cases hscalar

/-- A number is merged with the clamping writes before it, since no other number was
written. -/
theorem merge_of_number {n : Number} (hfamily : Mergeable path (done ++ [request]))
    (hdone : done ≠ []) (h : entry.Merged base done) (hnumber : request.range = none)
    (hvalue : request.value = .number n) :
    ∃ range, Verdict.merge entry request = .ok (.merged (range.clamp n) (some n) (some range)) ∧
      ClampRange.IsMeet (done.filterMap (·.range)) range ∧ done.findSome? (·.scalar?) = none := by
  have hscalars : done.filterMap (·.scalar?) = [] := by
    have hsingle := hfamily.single
    rw [List.filterMap_append, List.length_append, List.filterMap_cons_some
      (scalar?_of_number hnumber hvalue), List.length_cons] at hsingle
    apply List.length_eq_zero_iff.mp
    omega
  have hnone : done.findSome? (·.scalar?) = none := by
    rw [← List.head?_filterMap, hscalars]
    rfl
  have hmeets := h.range
  cases hheld : entry.range with
  | none =>
    rw [hheld] at hmeets
    exact absurd hscalars (hfamily.former.scalars_ne_nil hdone hmeets)
  | some held =>
    rw [hheld] at hmeets
    refine ⟨held, ?_, hmeets, hnone⟩
    simp [Verdict.merge, hnumber, Verdict.mergedScalar, hvalue, h.scalar, hnone, hheld,
      Verdict.combine]

/-- A write merges with those before it, into what all of them merge to. -/
theorem merge_of_merged {w : World} (hfamily : Mergeable path (done ++ [request]))
    (hbase : base.isFinite = true) (hdone : done ≠ []) (h : entry.Merged base done) :
    ∃ scalar range, Verdict.merge entry (request.drawn w) =
        .ok (.merged (range.clamp (mergeSource base (done ++ [request]))) scalar (some range)) ∧
      scalar = (done ++ [request]).findSome? (·.scalar?) ∧
      ClampRange.IsMeet ((done ++ [request]).filterMap (·.range)) range := by
  cases hrange : request.range with
  | some added =>
    have hdrawn : (request.drawn w).range = some added := by
      rw [request.drawn_range, hrange]
    obtain ⟨range, hmerge, hmeet⟩ := merge_of_range hfamily hbase h hrange hdrawn
    have hscalar : (done ++ [request]).findSome? (·.scalar?) = done.findSome? (·.scalar?) := by
      simp [List.findSome?_append, scalar?_of_range hrange]
    refine ⟨_, range, ?_, h.scalar.trans hscalar.symm, hmeet⟩
    rw [hmerge, mergeSource, mergeSource, hscalar]
  | none =>
    obtain ⟨n, hvalue, -⟩ := hfamily.numeric request (by simp) hrange
    obtain ⟨range, hmerge, hmeet, hnone⟩ := merge_of_number hfamily hdone h hrange hvalue
    have hscalar : (done ++ [request]).findSome? (·.scalar?) = some n := by
      simp [List.findSome?_append, hnone, scalar?_of_number hrange hvalue]
    refine ⟨some n, range, ?_, hscalar.symm, ?_⟩
    · rw [WriteRequest.drawn_of_number hrange, hmerge, mergeSource, hscalar]
      rfl
    · simpa [List.filterMap_append, hrange] using hmeet

end Verdict

structure ConflictRecord.MergeOf (done : List WriteRequest) (r : ConflictRecord) : Prop where
  strategy : r.strategy = .merge
  direct : r.result.fallbackFrom = none
  named : (∀ first ∈ done.head?, first.ruleId ≠ "") →
    r.result.mergedRules = done.map (·.ruleId)

namespace Ledger

variable {l : Ledger} {w : World} {path : String} {base : Number}
  {done rest : List WriteRequest} {request : WriteRequest} {entry : CellEntry}

def HoldsMerged (l : Ledger) (w : World) (path : String) (base : Number)
    (done : List WriteRequest) : Prop :=
  ∃ entry, l.entries.get? path = some entry ∧ entry.Merged base done ∧
    w.peek path = .ok entry.value

theorem resolution_of_merge {value : Number} {scalar : Option Number} {range : Option ClampRange}
    (hstrategy : l.strategyFor entry request = .merge)
    (hmerge : Verdict.merge entry request = .ok (.merged value scalar range)) :
    l.resolution entry request = .join entry request value scalar range := by
  simp [resolution, hstrategy, Strategy.resolve, Strategy.judge, hmerge, Resolution.ofJudgement,
    Resolution.ofVerdict]

/-- A conflict whose outcome its cell takes is settled. -/
theorem write_of_others {world : World} (hentry : l.entries.get? request.path = some entry)
    (hothers : ¬ entry.SoleWriter request.ruleId)
    (hworld : apply w request.path (l.resolution entry request).value = .ok world) :
    (l.write w request).ledger = l.settled entry request ∧ (l.write w request).world = world := by
  have hend := end_write l w request
  generalize (l.write w request).ledger = l' at hend ⊢
  generalize (l.write w request).world = w' at hend ⊢
  generalize (l.write w request).outcome = outcome at hend
  cases hend with
  | refused _ hsole => exact absurd (hsole entry hentry) hothers
  | opened hfresh =>
    rw [hentry] at hfresh
    cases hfresh
  | updated hentry' hsole =>
    rw [hentry] at hentry'
    cases hentry'
    exact absurd hsole hothers
  | withheld hentry' _ hrefused =>
    rw [hentry] at hentry'
    cases hentry'
    rw [hworld] at hrefused
    cases hrefused
  | settled hentry' _ hworld' =>
    rw [hentry] at hentry'
    cases hentry'
    rw [hworld] at hworld'
    cases hworld'
    exact ⟨rfl, rfl⟩

/-- A rule that comes new to a cell is not its sole writer. -/
theorem not_soleWriter_of_merged (hfamily : Mergeable path (done ++ [request])) (hdone : done ≠ [])
    (h : entry.Merged base done) : ¬ entry.SoleWriter request.ruleId := by
  intro hsole
  obtain ⟨first, hfirst⟩ := List.exists_mem_of_ne_nil done hdone
  have hid : first.ruleId ∈ entry.writers.map (·.ruleId) := by
    rw [h.writers]
    exact List.mem_map_of_mem hfirst
  obtain ⟨writer, hwriter, heq⟩ := List.mem_map.mp hid
  have hrules := hfamily.rules
  rw [List.map_append, List.nodup_append] at hrules
  exact hrules.2.2 first.ruleId (List.mem_map_of_mem hfirst) request.ruleId (by simp)
    (heq ▸ hsole writer hwriter)

theorem contributors_of_merged (hfamily : Mergeable path (done ++ [request]))
    (hnamed : entry.named = done.map (·.ruleId)) (w : World) :
    Resolution.contributors entry (request.drawn w) = (done ++ [request]).map (·.ruleId) := by
  have hbefore : Resolution.contributors entry (request.drawn w) =
      entry.named.filter (· ≠ (request.drawn w).ruleId) ++ [(request.drawn w).ruleId] := rfl
  have hrules := hfamily.rules
  rw [List.map_append, List.nodup_append] at hrules
  rw [hbefore, hnamed, request.drawn_ruleId, List.map_append, List.map_singleton]
  congr 1
  rw [List.filter_eq_self]
  intro id hid
  simpa using hrules.2.2 id hid request.ruleId (by simp)

/-- One more write is merged with those before it, and recorded so. -/
theorem HoldsMerged.write (hfamily : Mergeable path (done ++ [request]))
    (hbase : base.isFinite = true) (hdone : done ≠ []) (h : l.HoldsMerged w path base done)
    (hstrategy : ∀ entry, l.entries.get? request.path = some entry → entry.underReview = false →
      l.strategyFor entry (request.drawn w) = .merge) :
    (l.write w (request.drawn w)).ledger.HoldsMerged (l.write w (request.drawn w)).world path base
        (done ++ [request]) ∧
      ∃ record, (l.write w (request.drawn w)).ledger.records = l.records ++ [record] ∧
        record.MergeOf (done ++ [request]) := by
  obtain ⟨entry, hentry, hmerged, hpeek⟩ := h
  have hpath : request.path = path := hfamily.path request (by simp)
  have hdrawn : (request.drawn w).path = path := request.drawn_path w ▸ hpath
  obtain ⟨scalar, range, hmerge, hscalar, hmeet⟩ :=
    merge_of_merged (w := w) hfamily hbase hdone hmerged
  have hresolution := resolution_of_merge (hstrategy entry (hpath ▸ hentry) hmerged.calm) hmerge
  have hfinite := ClampRange.isFinite_clamp hmeet.finite (mergeSource_isFinite hfamily hbase)
  obtain ⟨world, hworld⟩ := World.write_number_succeeds hpeek hfinite
  have hothers : ¬ entry.SoleWriter (request.drawn w).ruleId := by
    rw [request.drawn_ruleId]
    exact not_soleWriter_of_merged hfamily hdone hmerged
  have happly : apply w (request.drawn w).path (l.resolution entry (request.drawn w)).value =
      .ok world := by
    rw [hresolution, hdrawn]
    exact hworld
  obtain ⟨hledger, hafter⟩ := write_of_others (hdrawn.symm ▸ hentry) hothers happly
  have hcontributors : (∀ first ∈ (done ++ [request]).head?, first.ruleId ≠ "") →
      Resolution.contributors entry (request.drawn w) = (done ++ [request]).map (·.ruleId) := by
    intro hfirst
    apply contributors_of_merged hfamily
    apply hmerged.named
    rwa [List.head?_append_of_ne_nil _ hdone] at hfirst
  rw [hledger, hafter]
  refine ⟨⟨settledEntry (entry.listing (request.drawn w))
    (l.resolution entry (request.drawn w)), ?_, ?_, ?_⟩, ?_⟩
  · simp [Ledger.settled, Ledger.put, hdrawn]
  · rw [hresolution]
    refine ⟨?_, hscalar, hmeet, rfl, ?_, ?_⟩
    · simp [settledEntry, Resolution.join, CellEntry.listing, hmerged.calm]
    · simp [settledEntry, CellEntry.listing, hmerged.writers, request.drawn_ruleId]
    · intro hfirst
      have hnamed := hcontributors hfirst
      have hsome : (Resolution.contributors entry (request.drawn w)).isEmpty = false := by
        rw [hnamed]
        simp
      simp only [CellEntry.named, settledEntry, Resolution.join, hsome]
      exact hnamed
  · rw [hresolution]
    rw [hmerged.value] at hpeek
    exact World.peek_of_write_number hpeek hworld
  · refine ⟨_, rfl, ?_⟩
    rw [hresolution]
    exact ⟨rfl, rfl, hcontributors⟩

/-- What a write of a mergeable family is drawn up for, where no other one came
before it. -/
theorem drawn_value (hfamily : Mergeable path [request]) (hbase : base.isFinite = true)
    (hpeek : w.peek path = .ok (.number base)) :
    ∃ n : Number, n.isFinite = true ∧ (request.drawn w).value = .number n ∧
      n = ClampRange.clampInto request.range (mergeSource base [request]) := by
  have hpath : request.path = path := hfamily.path request (by simp)
  cases hrange : request.range with
  | some added =>
    have hadded : added.Finite := hfamily.ranges added (by simp [hrange])
    have hsource : mergeSource base [request] = base := by
      simp [mergeSource, scalar?_of_range hrange]
    refine ⟨added.clamp base, ClampRange.isFinite_clamp hadded hbase, ?_, ?_⟩
    · rw [WriteRequest.drawn_of_range hrange (hpath ▸ hpeek)]
    · rw [hsource]
      rfl
  | none =>
    obtain ⟨n, hvalue, hn⟩ := hfamily.numeric request (by simp) hrange
    refine ⟨n, hn, ?_, ?_⟩
    · rw [WriteRequest.drawn_of_number hrange, hvalue]
    · simp [ClampRange.clampInto, mergeSource, scalar?_of_number hrange hvalue]

/-- The first write of a cell is no conflict. -/
theorem holdsMerged_first (hfamily : Mergeable path [request]) (hbase : base.isFinite = true)
    (hfresh : l.entries.get? path = none) (hpeek : w.peek path = .ok (.number base)) :
    (l.write w (request.drawn w)).ledger.HoldsMerged (l.write w (request.drawn w)).world path base
        [request] ∧
      (l.write w (request.drawn w)).ledger.records = l.records := by
  have hpath : (request.drawn w).path = path := by
    rw [request.drawn_path]
    exact hfamily.path request (by simp)
  obtain ⟨n, hn, hvalue, hclamped⟩ := drawn_value hfamily hbase hpeek
  obtain ⟨world, hworld⟩ := World.write_number_succeeds hpeek hn
  have hwrite : l.write w (request.drawn w) =
      ⟨l.put path (firstEntry (.number base) (request.drawn w)), world,
        .ok ⟨.number n, none⟩, []⟩ := by
    simp [Ledger.write, hpath, hfresh, writeFirst, hpeek, hvalue, hworld]
  have hscalar : (request.drawn w).scalar? = [request].findSome? (·.scalar?) := by
    cases hrange : request.range with
    | some added =>
      have hdrawn : (request.drawn w).range = some added := by rw [request.drawn_range, hrange]
      simp [scalar?_of_range hrange, scalar?_of_range hdrawn]
    | none => simp [WriteRequest.drawn_of_number hrange]
  rw [hwrite]
  refine ⟨⟨firstEntry (.number base) (request.drawn w), ?_,
    ⟨rfl, hscalar, ?_, ?_, ?_, ?_⟩, ?_⟩, rfl⟩
  · simp [Ledger.put]
  · simp only [firstEntry, request.drawn_range]
    cases hrange : request.range with
    | none => simp [ClampRange.Meets, hrange]
    | some added =>
      obtain ⟨point, hpoint, hall⟩ := hfamily.common
      have hmember : added ∈ [request].filterMap (·.range) := by simp [hrange]
      have hone : [request].filterMap (·.range) = [added] := by simp [hrange]
      rw [hone]
      exact ClampRange.isMeet_singleton (hfamily.ranges added hmember) hpoint (hall added hmember)
  · simp only [firstEntry, request.drawn_range, hvalue, hclamped]
  · simp [firstEntry, request.drawn_ruleId]
  · intro hfirst
    have hid : request.ruleId ≠ "" := hfirst request (by simp)
    simp [CellEntry.named, firstEntry, request.drawn_ruleId, hid]
  · rw [World.peek_of_write_number hpeek hworld]
    simp only [firstEntry, hvalue]

/-- What holds of the first writes of a family holds of all of them, with a record for
each further write. -/
theorem HoldsMerged.writeAll (hfamily : Mergeable path (done ++ rest))
    (hbase : base.isFinite = true) (hdone : done ≠ []) (h : l.HoldsMerged w path base done)
    (hmerges : l.Merges w rest) :
    (l.writeAll w rest).1.HoldsMerged (l.writeAll w rest).2 path base (done ++ rest) ∧
      ∃ records, (l.writeAll w rest).1.records = l.records ++ records ∧
        records.length = rest.length ∧
        (∀ r ∈ records, r.strategy = .merge ∧ r.result.fallbackFrom = none) ∧
        ∀ last ∈ records.getLast?, last.MergeOf (done ++ rest) := by
  induction rest generalizing l w done with
  | nil =>
    rw [List.append_nil]
    exact ⟨h, [], by simp [Ledger.writeAll], rfl, by simp, by simp⟩
  | cons request rest ih =>
    rw [List.append_cons] at hfamily ⊢
    obtain ⟨hstrategy, hlater⟩ := hmerges
    obtain ⟨hnext, record, hrecord, hmerge⟩ := h.write hfamily.former hbase hdone hstrategy
    obtain ⟨hend, records, hrecords, hlength, hdirect, hlast⟩ :=
      ih hfamily (by simp) hnext hlater
    refine ⟨hend, record :: records, ?_, ?_, ?_, ?_⟩
    · rw [Ledger.writeAll, hrecords, hrecord]
      simp
    · rw [List.length_cons, List.length_cons, hlength]
    · intro r hr
      rcases List.mem_cons.mp hr with rfl | hr
      · exact ⟨hmerge.strategy, hmerge.direct⟩
      · exact hdirect r hr
    · cases records with
      | nil =>
        have hnone : rest = [] := List.length_eq_zero_iff.mp hlength.symm
        subst hnone
        simpa using hmerge
      | cons later records =>
        rw [List.getLast?_cons_cons]
        exact hlast

end Ledger

/-- Of two writes and more one clamps at least. -/
theorem Mergeable.ranges_ne_nil {path : String} {family : List WriteRequest}
    (h : Mergeable path family) (htwo : 2 ≤ family.length) :
    family.filterMap (·.range) ≠ [] := by
  intro hnone
  have hscalars : ∀ request ∈ family, request.scalar?.isSome = true := by
    intro request hrequest
    have hnumber := List.filterMap_eq_nil_iff.mp hnone request hrequest
    obtain ⟨n, hvalue, -⟩ := h.numeric request hrequest hnumber
    rw [scalar?_of_number hnumber hvalue]
    rfl
  have hall : (family.filterMap (·.scalar?)).length = family.length :=
    List.filterMap_length_eq_length.mpr hscalars
  have hsingle := h.single
  omega

theorem Mergeable.perm {path : String} {family order : List WriteRequest}
    (h : Mergeable path family) (hperm : order.Perm family) : Mergeable path order := by
  have hranges := hperm.filterMap (·.range)
  refine ⟨?_, ?_, ?_, ?_, ?_, ?_⟩
  · exact fun request hrequest => h.path request (hperm.mem_iff.mp hrequest)
  · exact ((hperm.map _).nodup_iff).mpr h.rules
  · exact fun request hrequest => h.numeric request (hperm.mem_iff.mp hrequest)
  · rw [(hperm.filterMap (·.scalar?)).length_eq]
    exact h.single
  · exact fun range hrange => h.ranges range (hranges.mem_iff.mp hrange)
  · obtain ⟨point, hpoint, hall⟩ := h.common
    exact ⟨point, hpoint, fun range hrange => hall range (hranges.mem_iff.mp hrange)⟩

namespace Ledger

variable {l : Ledger} {w : World} {path : String} {base : Number} {family : List WriteRequest}

/-- Writes of a cell that are merged end in one value, whatever the order in which
they come: the number among them, or else the one that the cell held before, clamped
into the range that all the clamping writes have in common. Each write after the first
is recorded as a merge that needed no other strategy, and the last record names every
rule once, where the one that came first has a name. -/
theorem merge_ignores_order (hfamily : Mergeable path family) (htwo : 2 ≤ family.length)
    (hfresh : l.entries.get? path = none) (hpeek : w.peek path = .ok (.number base))
    (hbase : base.isFinite = true) :
    ∃ common, ClampRange.IsMeet (family.filterMap (·.range)) common ∧
      ∀ order : List WriteRequest, order.Perm family → l.Merges w order →
        (l.writeAll w order).2.peek path =
            .ok (.number (common.clamp (mergeSource base family))) ∧
          ∃ former last, (l.writeAll w order).1.records = l.records ++ (former ++ [last]) ∧
            former.length + 2 = family.length ∧
            (∀ r ∈ former ++ [last], r.strategy = .merge ∧ r.result.fallbackFrom = none) ∧
            ((∀ first ∈ order.head?, first.ruleId ≠ "") →
              last.result.mergedRules.Perm (family.map (·.ruleId))) := by
  have hsome := hfamily.ranges_ne_nil htwo
  obtain ⟨point, hpoint, hall⟩ := hfamily.common
  obtain ⟨common, hcommon⟩ := ClampRange.exists_isMeet hsome hfamily.ranges hpoint hall
  refine ⟨common, hcommon, ?_⟩
  intro order horder hmerges
  have hmergeable := hfamily.perm horder
  have hlength := horder.length_eq
  cases order with
  | nil =>
    rw [← hlength] at htwo
    cases htwo
  | cons first rest =>
    have hwhole : Mergeable path ([first] ++ rest) := hmergeable
    obtain ⟨hstart, hunrecorded⟩ := holdsMerged_first hwhole.former hbase hfresh hpeek
    obtain ⟨⟨entry, -, hmerged, hheld⟩, records, hrecords, hcount, hdirect, hlast⟩ :=
      hstart.writeAll hwhole hbase (List.cons_ne_nil _ _) hmerges.2
    have hvalue := hmerged.value
    have hmeets := hmerged.range
    have hranges := horder.filterMap (·.range)
    constructor
    · cases hrange : entry.range with
      | none =>
        rw [hrange] at hmeets
        have hnone : (first :: rest).filterMap (·.range) = [] := hmeets
        rw [hnone] at hranges
        exact absurd hranges.symm.eq_nil hsome
      | some range =>
        rw [hrange] at hmeets hvalue
        have hmeet : ClampRange.IsMeet ((first :: rest).filterMap (·.range)) range := hmeets
        have hsame := (hmeet.congr fun _ => hranges.mem_iff).unique hcommon
        subst hsame
        rw [← mergeSource_perm hfamily horder]
        rw [hvalue] at hheld
        exact hheld
    · rcases List.eq_nil_or_concat' records with rfl | ⟨former, last, rfl⟩
      · rw [List.length_nil] at hcount
        rw [List.length_cons, ← hcount] at hlength
        omega
      · refine ⟨former, last, ?_, ?_, hdirect, ?_⟩
        · rw [← hunrecorded]
          exact hrecords
        · rw [List.length_append, List.length_singleton] at hcount
          rw [← hlength, List.length_cons, ← hcount]
        · intro hfirst
          rw [(hlast last (by simp)).named hfirst]
          exact horder.map _

theorem policy_write (l : Ledger) (w : World) (request : WriteRequest) :
    (l.write w request).ledger.policy = l.policy := by
  have hend := end_write l w request
  generalize (l.write w request).ledger = l' at hend ⊢
  generalize (l.write w request).world = w' at hend
  generalize (l.write w request).outcome = outcome at hend
  cases hend with
  | refused | opened | updated | withheld | settled => rfl

/-- Under a policy of merges, writes that ask for nothing else are merged. -/
theorem merges_of_policy {order : List WriteRequest} (hstrategy : l.policy.strategy = .merge)
    (hreview : l.policy.manualReviewRules = [])
    (hplain : ∀ request ∈ order,
      request.action.strategy? = none ∧ request.ruleMetadata.strategy? = none) :
    l.Merges w order := by
  induction order generalizing l w with
  | nil => trivial
  | cons request rest ih =>
    constructor
    · intro entry _ hcalm
      obtain ⟨haction, hrule⟩ := hplain request List.mem_cons_self
      obtain ⟨value, hdrawn⟩ := request.drawn_eq w
      rw [hdrawn]
      have hnobody : (entry.writers.map (·.ruleId) ++ [request.ruleId]).any
          l.policy.manualReviewRules.contains = false := by
        simp [hreview]
      simp only [strategyFor, calledFor?, hcalm, haction, hrule, hnobody, hstrategy,
        Bool.false_eq_true, if_false, Option.none_or]
      split <;> rfl
    · apply ih
      · rw [policy_write, hstrategy]
      · rw [policy_write, hreview]
      · exact fun other hother => hplain other (List.mem_cons_of_mem _ hother)

def speedRequest (rule : String) (value : Value) (range : Option ClampRange) : WriteRequest :=
  { path := "environment.speed", value, ruleId := rule, priority := 1, action := ⟨.set, ∅⟩
    ruleMetadata := ∅, range }

/-- A world in which the speed is one. -/
def slow : World := { (default : World) with environment := .ofList [("speed", 1)] }

/-- A ledger under a policy of merges, with nothing written. -/
def merging : Ledger := (new ⟨.merge, [], []⟩).beginTick 0

def speeds : List WriteRequest :=
  [speedRequest "limit" 1 (some ⟨0, 5⟩), speedRequest "boost" 9 none,
    speedRequest "floor" 1 (some ⟨2, 8⟩)]

theorem ranges_speeds : speeds.filterMap (·.range) = [⟨0, 5⟩, ⟨2, 8⟩] := rfl

theorem mergeable_speeds : Mergeable "environment.speed" speeds := by
  refine ⟨by decide, by decide, ?_, by decide +kernel, ?_, ⟨3, by decide +kernel, ?_⟩⟩
  · intro request hrequest hnumber
    simp only [speeds, List.mem_cons, List.not_mem_nil, or_false] at hrequest
    rcases hrequest with rfl | rfl | rfl
    · cases hnumber
    · exact ⟨9, rfl, by decide +kernel⟩
    · cases hnumber
  · rw [ranges_speeds]
    intro range hrange
    simp only [List.mem_cons, List.not_mem_nil, or_false] at hrange
    rcases hrange with rfl | rfl
    · exact ⟨by decide +kernel, by decide +kernel⟩
    · exact ⟨by decide +kernel, by decide +kernel⟩
  · rw [ranges_speeds]
    intro range hrange
    simp only [List.mem_cons, List.not_mem_nil, or_false] at hrange
    rcases hrange with rfl | rfl
    · exact ⟨by decide +kernel, by decide +kernel⟩
    · exact ⟨by decide +kernel, by decide +kernel⟩

/-- Whether the boost comes in the middle or at the end, the speed is the same. -/
theorem speeds_merge_alike :
    ∃ common, ClampRange.IsMeet [⟨0, 5⟩, ⟨2, 8⟩] common ∧
      (merging.writeAll slow speeds).2.peek "environment.speed" =
        .ok (.number (common.clamp 9)) ∧
      (merging.writeAll slow speeds.reverse).2.peek "environment.speed" =
        .ok (.number (common.clamp 9)) := by
  have hpeek : slow.peek "environment.speed" = .ok (.number 1) := rfl
  have hmerges : ∀ order : List WriteRequest, order.Perm speeds → merging.Merges slow order := by
    intro order horder
    apply merges_of_policy rfl rfl
    intro request hrequest
    have hmember := horder.mem_iff.mp hrequest
    simp only [speeds, List.mem_cons, List.not_mem_nil, or_false] at hmember
    rcases hmember with rfl | rfl | rfl <;> exact ⟨rfl, rfl⟩
  obtain ⟨common, hcommon, hends⟩ := merge_ignores_order (l := merging) mergeable_speeds (by decide)
    rfl hpeek (by decide +kernel)
  have hreverse : speeds.reverse.Perm speeds := List.reverse_perm speeds
  exact ⟨common, hcommon, (hends speeds (.refl _) (hmerges _ (.refl _))).1,
    (hends speeds.reverse hreverse (hmerges _ hreverse)).1⟩

/-- A rule without a name that comes first is not named in the merge. -/
def nameless : List WriteRequest :=
  [speedRequest "" 1 (some ⟨0, 5⟩), speedRequest "floor" 1 (some ⟨2, 8⟩)]

theorem nameless_left_out :
    Mergeable "environment.speed" nameless ∧ 2 ≤ nameless.length ∧
      merging.entries.get? "environment.speed" = none ∧
      slow.peek "environment.speed" = .ok (.number 1) ∧ merging.Merges slow nameless ∧
      (merging.writeAll slow nameless).1.records.map (·.result.mergedRules) = [["floor"]] ∧
      ¬ ["floor"].Perm (nameless.map (·.ruleId)) := by
  have hranges : nameless.filterMap (·.range) = [⟨0, 5⟩, ⟨2, 8⟩] := rfl
  rw [← ranges_speeds] at hranges
  have hpeek : slow.peek "environment.speed" = .ok (.number 1) := rfl
  refine ⟨⟨by decide, by decide, ?_, by decide +kernel, ?_, ?_⟩, by decide, rfl, hpeek, ?_,
    by decide +kernel, by decide⟩
  · intro request hrequest hnumber
    simp only [nameless, List.mem_cons, List.not_mem_nil, or_false] at hrequest
    rcases hrequest with rfl | rfl <;> cases hnumber
  · rw [hranges]
    exact mergeable_speeds.ranges
  · rw [hranges]
    exact mergeable_speeds.common
  · apply merges_of_policy rfl rfl
    intro request hrequest
    simp only [nameless, List.mem_cons, List.not_mem_nil, or_false] at hrequest
    rcases hrequest with rfl | rfl <;> exact ⟨rfl, rfl⟩

end Ledger

end Harbormaster
