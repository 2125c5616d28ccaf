import Harbormaster.Proofs.Action.Failures
import Harbormaster.Proofs.Conflict.Course
import Harbormaster.Proofs.Conflict.Review
import Harbormaster.Proofs.Number.Whole

/-!
The entries of a ledger throughout a tick. An entry keeps the value of its cell, the value from
before the first write, the rules that were merged, and the range that clamping writes have in
common, each by itself and none of them read off the world. They stay true all the same: each
way in which a write can end changes the entry and the cell alike. What the range is worth is
told of numbers only. Sums can exceed what is finite, and two infinite ones of different signs
have a mean that is no number, which no range holds; with finite numbers to write this cannot
come about.
-/

namespace Harbormaster

/-- Whether a clamping write has its bounds in order and its value between them. -/
def WriteRequest.Fitted (request : WriteRequest) : Prop :=
  ∀ range, request.range = some range →
    range.Ordered ∧ ∃ n, request.value = .number n ∧ range.Holds n

theorem WriteRequest.Fitted.ranged {request : WriteRequest} (h : request.Fitted) :
    ∀ range, request.range = some range →
      ∃ n, request.value = .number n ∧ (n.isNaN = false → range.Holds n) := by
  intro range hrange
  obtain ⟨-, n, hvalue, hholds⟩ := h range hrange
  exact ⟨n, hvalue, fun _ => hholds⟩

section Deeds

variable {a : Action} {w : World} {target : String} {value before : Value} {message : String}
  {range : Option ClampRange}

theorem Deed.range_of_ofSet (h : ofSet a w = .ok (.write target value range before message)) :
    range = none := by
  unfold ofSet at h
  obtain ⟨_, -, h⟩ := ok_of_bind h
  obtain ⟨_, -, h⟩ := ok_of_bind h
  obtain ⟨_, -, h⟩ := ok_of_bind h
  obtain ⟨_, -, h⟩ := ok_of_bind h
  split at h
  · cases h
  · cases h
    rfl

theorem Deed.range_of_ofAdd (h : ofAdd a w = .ok (.write target value range before message)) :
    range = none := by
  unfold ofAdd at h
  obtain ⟨_, -, h⟩ := ok_of_bind h
  obtain ⟨_, -, h⟩ := ok_of_bind h
  obtain ⟨_, -, h⟩ := ok_of_bind h
  obtain ⟨_, -, h⟩ := ok_of_bind h
  obtain ⟨_, -, h⟩ := ok_of_bind h
  dsimp only at h
  split at h
  · obtain ⟨_, -, h⟩ := ok_of_bind h
    cases h
    rfl
  · obtain ⟨_, -, h⟩ := ok_of_bind h
    cases h
    rfl

/-- A clamp is drawn up only with bounds in order, for a cell that holds a number. -/
theorem Deed.range_of_ofClamp (h : ofClamp a w = .ok (.write target value range before message)) :
    ∃ bounds : ClampRange, range = some bounds ∧ bounds.Ordered ∧
      ∃ held : Number, held.isNaN = false ∧ value = .number (bounds.clamp held) := by
  unfold ofClamp at h
  obtain ⟨_, -, h⟩ := ok_of_bind h
  obtain ⟨_, -, h⟩ := ok_of_bind h
  obtain ⟨_, -, h⟩ := ok_of_bind h
  obtain ⟨low, hlow, h⟩ := ok_of_bind h
  obtain ⟨_, -, h⟩ := ok_of_bind h
  obtain ⟨_, -, h⟩ := ok_of_bind h
  obtain ⟨high, hhigh, h⟩ := ok_of_bind h
  split at h
  · cases h
  · rename_i hinOrder
    obtain ⟨_, -, h⟩ := ok_of_bind h
    obtain ⟨held, hheld, h⟩ := ok_of_bind h
    cases h
    refine ⟨⟨low, high⟩, rfl, ?_, held, (numeric_of_requireNumber hheld).2, rfl⟩
    exact Number.le_of_lt_eq_false (numeric_of_requireNumber hhigh).2
      (numeric_of_requireNumber hlow).2 (by simpa using hinOrder)

/-- What actions ask to write is fitted, in every world. -/
theorem Deed.fitted_of_ofAction {known : String → Bool} {rule : Rule}
    (h : ofAction known rule a w = .ok (.write target value range before message)) :
    (Stage.requestOf rule a target value range).Fitted := by
  have hplain : range = none → (Stage.requestOf rule a target value range).Fitted := by
    rintro rfl bounds hbounds
    cases hbounds
  have hmutating : a.kind.isMutating = true := by
    cases of_ofAction h with
    | write hkind => exact hkind
  unfold ofAction at h
  cases hkind : a.kind with
  | recommend | triggerRule | spawnEvent | log =>
    rw [hkind] at hmutating
    cases hmutating
  | set =>
    rw [hkind] at h
    exact hplain (range_of_ofSet h)
  | add =>
    rw [hkind] at h
    exact hplain (range_of_ofAdd h)
  | clamp =>
    rw [hkind] at h
    obtain ⟨bounds, rfl, hordered, held, hheld, rfl⟩ := range_of_ofClamp h
    intro found hfound
    cases hfound
    exact ⟨hordered, _, rfl, ClampRange.holds_clamp hordered hheld⟩

end Deeds

variable {entry : CellEntry} {request : WriteRequest} {resolution : Resolution} {base : Value}

inductive CellEntry.Merging (entry : CellEntry) (request : WriteRequest) :
    Number → Option Number → Option ClampRange → Prop where
  | clamped {added bounds : ClampRange} {source : Number} (hadded : request.range = some added)
      (hbounds : Verdict.mergedRange entry request added = .ok bounds)
      (hsource : entry.scalar.or entry.value.number? = some source) :
      Merging entry request (bounds.clamp source) entry.scalar (some bounds)
  | averaged {n : Number} (hnumber : Verdict.mergedScalar entry request = .ok n) :
      Merging entry request (ClampRange.clampInto entry.range n) (some n) entry.range

theorem Verdict.merging_of_merge {value : Number} {scalar : Option Number}
    {range : Option ClampRange}
    (h : Verdict.merge entry request = .ok (.merged value scalar range)) :
    entry.Merging request value scalar range := by
  unfold Verdict.merge at h
  cases hadded : request.range with
  | some added =>
    simp only [hadded] at h
    cases hbounds : Verdict.mergedRange entry request added with
    | error => simp [hbounds] at h
    | ok bounds =>
      simp only [hbounds, Verdict.combine] at h
      cases hsource : entry.scalar.or entry.value.number? with
      | none => simp [hsource] at h
      | some source =>
        simp only [hsource] at h
        cases h
        exact .clamped hadded hbounds hsource
  | none =>
    simp only [hadded] at h
    cases hnumber : Verdict.mergedScalar entry request with
    | error => simp [hnumber] at h
    | ok n =>
      simp only [hnumber, Verdict.combine, Option.some_or] at h
      have hmerging := CellEntry.Merging.averaged hnumber
      cases hrange : entry.range with
      | none | some =>
        rw [hrange] at hmerging
        simp only [hrange] at h
        cases h
        exact hmerging

inductive CellEntry.Settles (entry : CellEntry) (request : WriteRequest) : Resolution → Prop where
  | taken (strategy : Strategy) : Settles entry request (.win request strategy)
  | kept (strategy : Strategy) : Settles entry request (.keep entry strategy)
  | merged {value : Number} {scalar : Option Number} {range : Option ClampRange}
      (hmerging : entry.Merging request value scalar range) :
      Settles entry request (.join entry request value scalar range)
  | reverted : Settles entry request (.review entry)

namespace Ledger

/-- Why priority had to stand in for a merge is told by the record, and no entry says it. -/
theorem settles_resolution (l : Ledger) (entry : CellEntry) (request : WriteRequest) :
    ∃ resolution, entry.Settles request resolution ∧ ∀ listed,
      settledEntry listed (l.resolution entry request) = settledEntry listed resolution := by
  have hpriority : entry.Settles request
      (.ofVerdict .priority entry request (.byPriority entry request)) := by
    unfold Verdict.byPriority
    split
    · exact .taken _
    · exact .kept _
  unfold resolution
  cases l.strategyFor entry request with
  | priority => exact ⟨_, hpriority, fun _ => rfl⟩
  | lastWriteWins => exact ⟨_, .taken _, fun _ => rfl⟩
  | manualReview => exact ⟨_, .reverted, fun _ => rfl⟩
  | merge =>
    unfold Strategy.resolve Strategy.judge
    cases hmerge : Verdict.merge entry request with
    | error fault => exact ⟨_, hpriority, fun _ => rfl⟩
    | ok verdict =>
      obtain ⟨value, scalar, range, rfl⟩ := Verdict.merged_of_merge hmerge
      exact ⟨_, .merged (Verdict.merging_of_merge hmerge), fun _ => rfl⟩

end Ledger

structure CellEntry.Coherent (entry : CellEntry) : Prop where
  unrepeated : entry.mergedRules.Nodup
  merged : ∀ rule ∈ entry.mergedRules, rule ∈ entry.ruleIds
  holder : ∀ rule, entry.holder = some rule → rule ∈ entry.ruleIds
  ordered : ∀ range, entry.range = some range → range.Ordered
  ranged : ∀ range, entry.range = some range →
    ∃ n, entry.value = .number n ∧ (n.isNaN = false → range.Holds n)

namespace CellEntry

theorem Coherent.named (h : entry.Coherent) :
    entry.named.Nodup ∧ ∀ rule ∈ entry.named, rule ∈ entry.ruleIds := by
  unfold CellEntry.named
  split
  · exact ⟨h.unrepeated, h.merged⟩
  · cases hholder : entry.holder.filter (!·.isEmpty) with
    | none =>
      refine ⟨List.nodup_nil, ?_⟩
      intro rule hnone
      cases hnone
    | some rule =>
      refine ⟨List.nodup_singleton rule, ?_⟩
      intro other hother
      obtain rfl := List.mem_singleton.mp hother
      exact h.holder _ (Option.filter_eq_some_iff.mp hholder).1

/-- The rules of a merge are those that were named before, and the incoming rule once. -/
theorem Coherent.contributors (h : entry.Coherent) (request : WriteRequest) :
    (Resolution.contributors entry request).Nodup ∧
      ∀ rule ∈ Resolution.contributors entry request,
        rule ∈ (entry.listing request).ruleIds := by
  have hnamed : Resolution.contributors entry request =
      entry.named.filter (· ≠ request.ruleId) ++ [request.ruleId] := rfl
  have hids : (entry.listing request).ruleIds = entry.ruleIds ++ [request.ruleId] := by
    simp [listing, ruleIds]
  rw [hnamed, hids]
  constructor
  · rw [List.nodup_append]
    refine ⟨h.named.1.filter _, List.nodup_singleton _, ?_⟩
    intro rule hrule other hother
    rw [List.mem_singleton.mp hother]
    simpa using (List.mem_filter.mp hrule).2
  · intro rule hrule
    rcases List.mem_append.mp hrule with hformer | hnow
    · exact List.mem_append_left _ (h.named.2 rule (List.mem_filter.mp hformer).1)
    · exact List.mem_append_right _ hnow

theorem coherent_of_unmerged (hunmerged : entry.mergedRules = [])
    (hholder : ∀ rule, entry.holder = some rule → rule ∈ entry.ruleIds)
    (hordered : ∀ range, entry.range = some range → range.Ordered)
    (hranged : ∀ range, entry.range = some range →
      ∃ n, entry.value = .number n ∧ (n.isNaN = false → range.Holds n)) : entry.Coherent := by
  refine ⟨?_, ?_, hholder, hordered, hranged⟩
  · rw [hunmerged]
    exact List.nodup_nil
  · rw [hunmerged]
    intro rule hnone
    cases hnone

/-- A cell that has been left to a fitted write. -/
theorem coherent_of_taken (hfitted : request.Fitted) (hunmerged : entry.mergedRules = [])
    (hholder : entry.holder = some request.ruleId) (hwriter : request ∈ entry.writers)
    (hvalue : entry.value = request.value) (hrange : entry.range = request.range) :
    entry.Coherent := by
  refine coherent_of_unmerged hunmerged ?_ ?_ ?_
  · intro rule hrule
    obtain rfl := Option.some.inj (hholder.symm.trans hrule)
    exact List.mem_map.mpr ⟨request, hwriter, rfl⟩
  · rw [hrange]
    exact fun range hadded => (hfitted range hadded).1
  · rw [hrange, hvalue]
    exact hfitted.ranged

theorem coherent_firstEntry (hfitted : request.Fitted) :
    (Ledger.firstEntry base request).Coherent :=
  coherent_of_taken hfitted rfl rfl (List.mem_singleton.mpr rfl) rfl rfl

theorem Coherent.listing (h : entry.Coherent) (request : WriteRequest) :
    (entry.listing request).Coherent := by
  have hgrows : ∀ rule ∈ entry.ruleIds, rule ∈ (entry.listing request).ruleIds := by
    intro rule hrule
    simp only [CellEntry.listing, ruleIds, List.map_append]
    exact List.mem_append_left _ hrule
  exact ⟨h.unrepeated, fun rule hrule => hgrows rule (h.merged rule hrule),
    fun rule hholder => hgrows rule (h.holder rule hholder), h.ordered, h.ranged⟩

theorem Coherent.updated (h : entry.Coherent) (hfitted : request.Fitted) :
    (Ledger.updatedEntry entry request).Coherent := by
  have hlisting := h.listing request
  exact ⟨hlisting.unrepeated, hlisting.merged, hlisting.holder,
    fun range hadded => (hfitted range hadded).1, hfitted.ranged⟩

theorem Coherent.mergedRange (h : entry.Coherent) {added bounds : ClampRange}
    (hadded : added.Ordered) (hbounds : Verdict.mergedRange entry request added = .ok bounds) :
    bounds.Ordered := by
  unfold Verdict.mergedRange at hbounds
  cases hrange : entry.range with
  | none =>
    simp only [hrange] at hbounds
    split at hbounds
    · cases hbounds
    · cases hbounds
      exact hadded
  | some held =>
    simp only [hrange] at hbounds
    split at hbounds
    · cases hbounds
    · rename_i hinOrder
      cases hbounds
      exact (h.ordered held hrange).meet hadded (by simpa using hinOrder)

/-- A merge clamps what it starts from into the range that it leaves. -/
theorem Coherent.merging (h : entry.Coherent) (hfitted : request.Fitted) {value : Number}
    {scalar : Option Number} {range : Option ClampRange}
    (hmerging : entry.Merging request value scalar range) {bounds : ClampRange}
    (hbounds : range = some bounds) :
    bounds.Ordered ∧ (value.isNaN = false → bounds.Holds value) := by
  have hclamps : bounds.Ordered → ∀ source : Number, (bounds.clamp source).isNaN = false →
      bounds.Holds (bounds.clamp source) := by
    intro hordered source hnumber
    rw [ClampRange.isNaN_clamp hordered] at hnumber
    exact ClampRange.holds_clamp hordered hnumber
  cases hmerging with
  | clamped hadded hmet =>
    cases hbounds
    have hordered := h.mergedRange (hfitted _ hadded).1 hmet
    exact ⟨hordered, hclamps hordered _⟩
  | averaged =>
    have hordered := h.ordered bounds hbounds
    rw [hbounds]
    exact ⟨hordered, hclamps hordered _⟩

theorem Coherent.settled (h : entry.Coherent) (hfitted : request.Fitted)
    (hsettles : entry.Settles request resolution) :
    (Ledger.settledEntry (entry.listing request) resolution).Coherent := by
  have hlisting := h.listing request
  cases hsettles with
  | taken => exact coherent_of_taken hfitted rfl rfl List.mem_concat_self rfl rfl
  | kept => exact ⟨hlisting.unrepeated, hlisting.merged, hlisting.holder, h.ordered, h.ranged⟩
  | merged hmerging =>
    obtain ⟨hunrepeated, hmerged⟩ := h.contributors request
    refine ⟨hunrepeated, hmerged, ?_, fun _ hrange => (h.merging hfitted hmerging hrange).1, ?_⟩
    · intro rule hholder
      cases hholder
      simp [Ledger.settledEntry, CellEntry.listing, ruleIds]
    · intro range hrange
      exact ⟨_, rfl, (h.merging hfitted hmerging hrange).2⟩
  | reverted =>
    refine coherent_of_unmerged rfl ?_ ?_ ?_
    all_goals
      intro _ hnone
      cases hnone

end CellEntry

section Means

theorem Number.isNaN_ofQuotient (negative : Bool) (numerator denominator : Nat) :
    (Number.ofQuotient negative numerator denominator).isNaN = false := by
  unfold Number.ofQuotient
  split <;> rfl

theorem Number.isNaN_add {a b : Number} (ha : a.isNaN = false) (hb : b.isFinite = true) :
    (a + b).isNaN = false := by
  cases b with
  | infinite | notANumber => cases hb
  | finite =>
    cases a with
    | notANumber => cases ha
    | infinite => rfl
    | finite => exact isNaN_ofQuotient _ _ _

theorem Number.isNaN_half {n : Number} (h : n.isNaN = false) : (n / 2).isNaN = false := by
  have hfits := fits_whole (show 2 ≤ exactLimit by decide)
  have htwo : (2 : Number) = .finite (2 * unit) hfits := ofNat_eq_finite (by decide)
  have hsome : ((2 : Int) * unit) ≠ 0 := by
    have hunit := unit_pos
    omega
  rw [htwo]
  change (n.div _).isNaN = false
  cases n with
  | notANumber => cases h
  | infinite => rfl
  | finite =>
    rw [Number.div, if_neg hsome]
    exact isNaN_ofQuotient _ _ _

end Means

/-- Whether a write asks for nothing that is infinite or no number. -/
def WriteRequest.AsksFinite (request : WriteRequest) : Prop :=
  ∀ n, request.value = .number n → n.isFinite = true

theorem WriteRequest.AsksFinite.isNaN (h : request.AsksFinite) : request.value.isNaN = false := by
  cases hvalue : request.value with
  | number n => exact Number.isNaN_of_isFinite (h n hvalue)
  | missing | absent | boolean | text | list | record | native | fallback => rfl

theorem WriteRequest.AsksFinite.scalar? (h : request.AsksFinite) {n : Number}
    (hscalar : request.scalar? = some n) : n.isNaN = false := by
  unfold WriteRequest.scalar? at hscalar
  split at hscalar
  · cases hscalar
  · exact Number.isNaN_of_isFinite (h n (Value.number?_eq_some_iff.mp hscalar))

structure CellEntry.Numeric (entry : CellEntry) : Prop where
  base : entry.base.isNaN = false
  value : entry.value.isNaN = false
  scalar : ∀ n, entry.scalar = some n → n.isNaN = false

namespace CellEntry

theorem numeric_firstEntry (hbase : base.isNaN = false) (hfinite : request.AsksFinite) :
    (Ledger.firstEntry base request).Numeric :=
  ⟨hbase, hfinite.isNaN, fun _ hscalar => hfinite.scalar? hscalar⟩

theorem Numeric.updated (h : entry.Numeric) (hfinite : request.AsksFinite) :
    (Ledger.updatedEntry entry request).Numeric :=
  ⟨h.base, hfinite.isNaN, fun _ hscalar => hfinite.scalar? hscalar⟩

theorem Numeric.mergedScalar (h : entry.Numeric) (hfinite : request.AsksFinite) {n : Number}
    (hnumber : Verdict.mergedScalar entry request = .ok n) : n.isNaN = false := by
  unfold Verdict.mergedScalar at hnumber
  split at hnumber
  · rename_i added hadded
    have hsome := hfinite added hadded
    split at hnumber
    · rename_i held hheld
      cases hnumber
      exact Number.isNaN_half (Number.isNaN_add (h.scalar held hheld) hsome)
    · split at hnumber
      · cases hnumber
      · cases hnumber
        exact Number.isNaN_of_isFinite hsome
  · cases hnumber

theorem Numeric.merging (h : entry.Numeric) (hcoherent : entry.Coherent) (hfitted : request.Fitted)
    (hfinite : request.AsksFinite) {value : Number} {scalar : Option Number}
    {range : Option ClampRange} (hmerging : entry.Merging request value scalar range) :
    value.isNaN = false ∧ ∀ n, scalar = some n → n.isNaN = false := by
  cases hmerging with
  | clamped hadded hbounds hsource =>
    rw [ClampRange.isNaN_clamp (hcoherent.mergedRange (hfitted _ hadded).1 hbounds)]
    refine ⟨?_, h.scalar⟩
    rcases Option.or_eq_some_iff.mp hsource with hscalar | ⟨-, hvalue⟩
    · exact h.scalar _ hscalar
    · have hnumber := h.value
      rwa [Value.number?_eq_some_iff.mp hvalue] at hnumber
  | @averaged n hnumber =>
    have hsome := h.mergedScalar hfinite hnumber
    constructor
    · cases hrange : entry.range with
      | none => exact hsome
      | some bounds =>
        have hordered := hcoherent.ordered bounds hrange
        exact (ClampRange.isNaN_clamp hordered n).trans hsome
    · intro m hm
      cases hm
      exact hsome

theorem Numeric.settled (h : entry.Numeric) (hcoherent : entry.Coherent)
    (hfitted : request.Fitted) (hfinite : request.AsksFinite)
    (hsettles : entry.Settles request resolution) :
    (Ledger.settledEntry (entry.listing request) resolution).Numeric := by
  cases hsettles with
  | taken => exact ⟨h.base, hfinite.isNaN, fun _ hscalar => hfinite.scalar? hscalar⟩
  | kept => exact ⟨h.base, h.value, h.scalar⟩
  | merged hmerging =>
    obtain ⟨hvalue, hscalar⟩ := h.merging hcoherent hfitted hfinite hmerging
    exact ⟨h.base, hvalue, hscalar⟩
  | reverted => exact ⟨h.base, h.base, fun _ hnone => nomatch hnone⟩

end CellEntry

namespace Ledger

variable {l l' : Ledger} {tick : Value} {start w' : World} {asked : List WriteRequest}
  {passed : List (WriteRequest × World)} {path : String}

theorem Course.coherent (h : Course (l.beginTick tick) start asked passed l' w')
    (hfitted : ∀ request ∈ asked, request.Fitted) :
    ∀ entry, l'.entries.get? path = some entry → entry.Coherent := by
  induction h with
  | begun => exact fun _ hentry => nomatch hentry
  | written _ hend ih =>
    have hrequest := hfitted _ List.mem_concat_self
    refine entry_of_end hend (ih fun other hother => hfitted other (List.mem_append_left _ hother))
      ?_ ?_ ?_ ?_
    · exact fun _ _ _ _ => CellEntry.coherent_firstEntry hrequest
    · exact fun _ _ _ hcoherent => hcoherent.updated hrequest
    · exact fun _ _ _ hcoherent => hcoherent.listing _
    · intro _ entry _ hcoherent
      obtain ⟨resolution, hsettles, heq⟩ := settles_resolution _ entry _
      rw [heq]
      exact hcoherent.settled hrequest hsettles

theorem Course.numeric (h : Course (l.beginTick tick) start asked passed l' w')
    (hfitted : ∀ request ∈ asked, request.Fitted)
    (howns : ∀ request ∈ asked, start.Owns request.path)
    (hfinite : ∀ request ∈ asked, request.path = path → request.AsksFinite)
    (hstart : ∀ base, start.peek path = .ok base → base.isNaN = false) :
    ∀ entry, l'.entries.get? path = some entry → entry.Numeric := by
  induction h with
  | begun => exact fun _ hentry => nomatch hentry
  | @written asked _ _ _ _ _ request _ hbefore hend ih =>
    have hlast : request ∈ asked ++ [request] := List.mem_concat_self
    have hformer : ∀ other ∈ asked, other.Fitted :=
      fun other hother => hfitted other (List.mem_append_left _ hother)
    have hcells : ∀ other ∈ asked, start.Owns other.path :=
      fun other hother => howns other (List.mem_append_left _ hother)
    refine entry_of_end hend ?_ ?_ ?_ ?_ ?_
    · exact ih hformer hcells fun other hother => hfinite other (List.mem_append_left _ hother)
    · intro hpath hfresh base hbase
      rw [(hbefore.tracks hcells).untouched path hfresh] at hbase
      exact CellEntry.numeric_firstEntry (hstart base hbase) (hfinite request hlast hpath)
    · exact fun hpath _ _ hnumeric => hnumeric.updated (hfinite request hlast hpath)
    · exact fun _ _ _ hnumeric => ⟨hnumeric.base, hnumeric.value, hnumeric.scalar⟩
    · intro hpath entry hentry hnumeric
      obtain ⟨resolution, hsettles, heq⟩ := settles_resolution _ entry request
      rw [heq]
      exact hnumeric.settled (hbefore.coherent hformer entry hentry) (hfitted request hlast)
        (hfinite request hlast hpath) hsettles

/-- Throughout a tick, whatever of its writes go through, the entries are true of the world as
long as nothing else answers for the cells that are written: a cell without an entry is as it
was before the tick, and an entry knows the value of its cell and the one that the first write
to go through has found there. The rules that it names as merged are different ones of its
writers, and its value lies in its range if it is a number at all, as it is among finite
numbers. -/
theorem entries_keep_step (l : Ledger) (tick : Value) (start : World)
    (requests : List WriteRequest) :
    (∀ known rule action w target value range before message,
      Deed.ofAction known rule action w = .ok (.write target value range before message) →
      (Stage.requestOf rule action target value range).Fitted) ∧
    ((∀ request ∈ requests, request.Fitted) →
      (∀ request ∈ requests, start.Owns request.path) →
      ∀ path,
        let begun := l.beginTick tick
        let now := begun.writeEach start requests
        let first := (begun.accepted start requests).find? (·.1.path = path)
        (now.1.entries.get? path = none → first = none ∧ now.2.peek path = start.peek path) ∧
        ∀ entry, now.1.entries.get? path = some entry →
          now.2.peek path = .ok entry.value ∧
          (∃ opening, first = some opening ∧ opening.2.peek path = .ok entry.base) ∧
          start.peek path = .ok entry.base ∧
          entry.mergedRules.Nodup ∧
          (∀ rule ∈ entry.mergedRules, ∃ writer ∈ entry.writers, writer.ruleId = rule) ∧
          ∀ range, entry.range = some range →
            ∃ n, entry.value = .number n ∧ (n.isNaN = false → range.Holds n) ∧
              ((∀ request ∈ requests, request.path = path → request.AsksFinite) →
                (∀ base, start.peek path = .ok base → base.isNaN = false) → range.Holds n)) := by
  refine ⟨fun _ _ _ _ _ _ _ _ _ => Deed.fitted_of_ofAction, ?_⟩
  intro hfitted howns path begun now first
  have hcourse : Course begun start requests (begun.accepted start requests) now.1 now.2 :=
    course_writeEach begun start requests
  have hbase := hcourse.base_eq path
  have htracks := hcourse.tracks howns
  constructor
  · intro hfresh
    rw [hfresh, Option.map_none, Option.map_eq_none_iff] at hbase
    exact ⟨hbase, htracks.untouched path hfresh⟩
  · intro entry hentry
    rw [hentry, Option.map_some, Option.map_eq_some_iff] at hbase
    have hcoherent := hcourse.coherent hfitted entry hentry
    refine ⟨htracks.value path entry hentry, hbase, htracks.base path entry hentry,
      hcoherent.unrepeated, fun rule hrule => List.mem_map.mp (hcoherent.merged rule hrule), ?_⟩
    intro range hrange
    obtain ⟨n, hvalue, hholds⟩ := hcoherent.ranged range hrange
    refine ⟨n, hvalue, hholds, fun hfinite hstart => hholds ?_⟩
    have hnumber := (hcourse.numeric hfitted howns hfinite hstart entry hentry).value
    rwa [hvalue] at hnumber

def tries : List WriteRequest :=
  [speedRequest "siren" (.list []) none, speedRequest "limit" 1 (some ⟨0, 5⟩),
    speedRequest "boost" 9 none, speedRequest "floor" 5 (some ⟨2, 8⟩)]

theorem entries_keep_step_of_tries :
    (∀ request ∈ tries, request.Fitted) ∧ (∀ request ∈ tries, slow.Owns request.path) ∧
      ((merging.beginTick 1).accepted slow tries).map (·.1.ruleId) = ["limit", "boost", "floor"] ∧
      ∃ entry, ((merging.beginTick 1).writeEach slow tries).1.entries.get? "environment.speed" =
          some entry ∧
        ((merging.beginTick 1).writeEach slow tries).2.peek "environment.speed" =
          .ok entry.value ∧
        slow.peek "environment.speed" = .ok entry.base ∧ entry.mergedRules.Nodup ∧
        entry.range = some ⟨2, 5⟩ ∧ ∃ n, entry.value = .number n ∧ ClampRange.Holds ⟨2, 5⟩ n := by
  have hfitted : ∀ request ∈ tries, request.Fitted := by
    intro request hrequest range hrange
    simp only [tries, List.mem_cons, List.not_mem_nil, or_false] at hrequest
    rcases hrequest with rfl | rfl | rfl | rfl
    · cases hrange
    · obtain rfl : ⟨0, 5⟩ = range := Option.some.inj hrange
      exact ⟨by decide +kernel, 1, rfl, by decide +kernel, by decide +kernel⟩
    · cases hrange
    · obtain rfl : ⟨2, 8⟩ = range := Option.some.inj hrange
      exact ⟨by decide +kernel, 5, rfl, by decide +kernel, by decide +kernel⟩
  have howns : ∀ request ∈ tries, slow.Owns request.path := by decide +kernel
  have hfinite : ∀ request ∈ tries, request.path = "environment.speed" → request.AsksFinite := by
    intro request hrequest _ n hnumber
    simp only [tries, List.mem_cons, List.not_mem_nil, or_false] at hrequest
    rcases hrequest with rfl | rfl | rfl | rfl
    · cases hnumber
    all_goals
      obtain rfl := Value.number.inj hnumber
      decide +kernel
  have hstart : ∀ base, slow.peek "environment.speed" = .ok base → base.isNaN = false := by
    intro base hbase
    obtain rfl : .number 1 = base := Except.ok.inj hbase
    decide +kernel
  have hrange : (((merging.beginTick 1).writeEach slow tries).1.entries.get?
      "environment.speed").map (·.range) = some (some ⟨2, 5⟩) := by decide +kernel
  obtain ⟨entry, hentry, hrange⟩ := Option.map_eq_some_iff.mp hrange
  obtain ⟨hvalue, -, hbase, hunrepeated, -, hheld⟩ :=
    ((entries_keep_step merging 1 slow tries).2 hfitted howns "environment.speed").2 entry hentry
  obtain ⟨n, hn, -, hholds⟩ := hheld ⟨2, 5⟩ hrange
  exact ⟨hfitted, howns, by decide +kernel, entry, hentry, hvalue, hbase, hunrepeated, hrange, n,
    hn, hholds hfinite hstart⟩

/-- A number in place of what the environment falls back on. -/
def baseRequest : WriteRequest :=
  { speedRequest "limit" 5 none with path := "environment.__proto__" }

/-- The entry has the number as its value, and the cell shows what it showed before. -/
theorem entry_drifts_from_base :
    baseRequest.Fitted ∧
      (((merging.beginTick 1).writeEach slow [baseRequest]).1.entries.get?
        "environment.__proto__").map (·.value) = some 5 ∧
      ((merging.beginTick 1).writeEach slow [baseRequest]).2.peek "environment.__proto__" =
        .ok (.native .root) :=
  ⟨fun _ hnone => (nomatch hnone), rfl, rfl⟩

end Ledger

end Harbormaster
