import Harbormaster.Proofs.Conflict.Ends
import Harbormaster.Proofs.Number.Whole
import Harbormaster.Proofs.Text.Occurrences

/-!
What the records of a tick tell of the writes in it. The ledger lists writers of a cell
also where their writes failed, but it opens no entry for those, and a cell gets a record
only by a write that goes through; so the cells with a record are those that two rules
have written. Rules have their turns one after the other, each one only once: a rule that
is not the first writer of a cell is found there among other rules whenever it writes.
Which writes have gone through is not kept by the ledger. They are told from outside, each
as the path of its cell and the rule.
-/

namespace Harbormaster

def CellEntry.ruleIds (entry : CellEntry) : List String := entry.writers.map (·.ruleId)

theorem CellEntry.soleWriter_iff {entry : CellEntry} {rule : String} :
    entry.SoleWriter rule ↔ ∀ id ∈ entry.ruleIds, id = rule := by
  simp [SoleWriter, ruleIds]

def WriteRequest.booking (request : WriteRequest) :
    Except Failure WriteOutcome → List (String × String)
  | .ok _ => [(request.path, request.ruleId)]
  | .error _ => []

/-- One more write tells nothing of other cells. -/
private theorem mem_of_mem_concat {writes : List (String × String)} {path rule other id : String}
    (h : (other, id) ∈ writes ++ [(path, rule)]) (hother : other ≠ path) :
    (other, id) ∈ writes := by
  rcases List.mem_append.mp h with hformer | hnow
  · exact hformer
  · exact absurd (Prod.mk.inj (List.mem_singleton.mp hnow)).1 hother

/-- Of its own cell it tells one rule. -/
private theorem rule_of_mem_concat {writes : List (String × String)} {path rule id : String}
    (h : (path, id) ∈ writes ++ [(path, rule)]) : (path, id) ∈ writes ∨ id = rule := by
  rcases List.mem_append.mp h with hformer | hnow
  · exact .inl hformer
  · exact .inr (Prod.mk.inj (List.mem_singleton.mp hnow)).2

namespace Ledger

section Distinct

variable {ids former : List String} {id : String}

theorem distinct_eq_eraseDups (ids : List String) : distinct ids = ids.eraseDups :=
  Text.foldl_eq_eraseDups ids

@[simp] theorem mem_distinct : id ∈ distinct ids ↔ id ∈ ids := by
  rw [distinct_eq_eraseDups, List.mem_eraseDups]

theorem distinct_concat (ids : List String) (id : String) :
    distinct (ids ++ [id]) = if id ∈ distinct ids then distinct ids else distinct ids ++ [id] := by
  simp [distinct, List.foldl_append]

theorem nodup_distinct (ids : List String) : (distinct ids).Nodup := by
  rw [distinct_eq_eraseDups]
  exact Text.nodup_eraseDups ids

theorem distinct_cons (id : String) (rest : List String) :
    ∃ others, distinct (id :: rest) = id :: others := by
  rw [distinct_eq_eraseDups, List.eraseDups_cons]
  exact ⟨_, rfl⟩

/-- The rule that has its turn may join those that came before it. -/
theorem sublist_distinct_concat (h : (distinct ids).Sublist (former ++ [id])) :
    (distinct (ids ++ [id])).Sublist (former ++ [id]) := by
  rw [distinct_concat]
  split
  · exact h
  · rename_i hnew
    obtain ⟨before, last, heq, hbefore, hlast⟩ := List.sublist_append_iff.mp h
    have hnone : last = [] := by
      rcases List.sublist_singleton.mp hlast with hnil | hid
      · exact hnil
      · exact absurd (by simp [heq, hid]) hnew
    rw [heq, hnone, List.append_nil]
    exact hbefore.append (List.Sublist.refl _)

/-- A cell that the rule that has its turn has written first lists no other rule. -/
theorem eq_of_distinct_sublist (h : (distinct (id :: ids)).Sublist (former ++ [id]))
    (hnew : id ∉ former) : ∀ other ∈ id :: ids, other = id := by
  obtain ⟨others, hothers⟩ := distinct_cons id ids
  rw [hothers] at h
  obtain ⟨before, last, heq, hbefore, hlast⟩ := List.sublist_append_iff.mp h
  have hnone : before = [] := by
    cases before with
    | nil => rfl
    | cons first rest =>
      have hfirst : first = id := (List.cons.inj heq).1.symm
      exact absurd (hbefore.subset (hfirst ▸ List.mem_cons_self)) hnew
  rw [hnone, List.nil_append] at heq
  intro other hother
  rw [← mem_distinct, hothers, heq] at hother
  exact List.mem_singleton.mp (hlast.subset hother)

end Distinct

/-- The last record of a path. -/
def lastOn? (records : List ConflictRecord) (path : String) : Option ConflictRecord :=
  (records.filter (·.path = path)).getLast?

theorem lastOn?_concat (records : List ConflictRecord) (record : ConflictRecord) (path : String) :
    lastOn? (records ++ [record]) path =
      if record.path = path then some record else lastOn? records path := by
  unfold lastOn?
  rw [List.filter_append]
  split
  · rename_i hpath
    simp [hpath]
  · rename_i hpath
    simp [hpath]

theorem exists_lastOn? {records : List ConflictRecord} {r : ConflictRecord} (h : r ∈ records) :
    ∃ last, lastOn? records r.path = some last := by
  have hthere : r ∈ records.filter (·.path = r.path) := List.mem_filter.mpr ⟨h, decide_eq_true rfl⟩
  exact ⟨_, List.getLast?_eq_some_getLast (List.ne_nil_of_mem hthere)⟩

theorem mem_of_lastOn? {records : List ConflictRecord} {path : String} {r : ConflictRecord}
    (h : lastOn? records path = some r) : r ∈ records ∧ r.path = path := by
  have hmem := List.mem_of_getLast? h
  simpa using List.mem_filter.mp hmem

section Writers

variable {l l' : Ledger} {w w' : World} {request : WriteRequest} {entry : CellEntry}
  {result : Except Failure WriteOutcome}

def writersOf (l : Ledger) (path : String) : List String :=
  ((l.entries.get? path).map CellEntry.ruleIds).getD []

theorem writersOf_of_get? {path : String} (h : l.entries.get? path = some entry) :
    l.writersOf path = entry.ruleIds := by
  simp [writersOf, h]

theorem writersOf_put (l : Ledger) (path : String) (entry : CellEntry) (other : String) :
    (l.put path entry).writersOf other =
      if other = path then entry.ruleIds else l.writersOf other := by
  unfold writersOf
  rw [get?_put]
  split <;> rfl

/-- A write lists its rule as a writer of its cell, or it leaves the ledger as it is.
Where nobody was listed before, it goes through. -/
theorem writersOf_of_end (hend : End l w request l' w' result) :
    (l' = l ∧ request.booking result = []) ∨
      (∀ path, l'.writersOf path =
        if path = request.path then l.writersOf path ++ [request.ruleId] else l.writersOf path) ∧
      (l.writersOf request.path = [] →
        request.booking result = [(request.path, request.ruleId)]) := by
  have hput : ∀ entry : CellEntry, entry.ruleIds = l.writersOf request.path ++ [request.ruleId] →
      ∀ path, (l.put request.path entry).writersOf path =
        if path = request.path then l.writersOf path ++ [request.ruleId]
        else l.writersOf path := by
    intro entry hids path
    rw [writersOf_put, hids]
    split
    · rename_i hpath
      rw [hpath]
    · rfl
  cases hend with
  | refused => exact .inl ⟨rfl, rfl⟩
  | opened hfresh =>
    refine .inr ⟨hput _ ?_, fun _ => rfl⟩
    simp [writersOf, hfresh, firstEntry, CellEntry.ruleIds]
  | updated hentry =>
    refine .inr ⟨hput _ ?_, fun _ => rfl⟩
    simp [writersOf_of_get? hentry, updatedEntry, CellEntry.ruleIds]
  | withheld hentry hothers =>
    refine .inr ⟨hput _ ?_, ?_⟩
    · simp [writersOf_of_get? hentry, CellEntry.listing, CellEntry.ruleIds]
    · intro hnobody
      refine absurd (CellEntry.soleWriter_iff.mpr ?_) hothers
      rw [← writersOf_of_get? hentry, hnobody]
      exact fun _ hid => (List.not_mem_nil hid).elim
  | @settled entry _ hentry =>
    refine .inr ⟨hput (settledEntry (entry.listing request) (l.resolution entry request)) ?_,
      fun _ => rfl⟩
    simp [writersOf_of_get? hentry, settledEntry, CellEntry.listing, CellEntry.ruleIds]

end Writers

/-- What the ledger lists of the writers of cells, where `order` are the rules that have
had their turns and `writes` what went through. -/
structure Lists (l : Ledger) (order : List String) (writes : List (String × String)) : Prop where
  /-- Who has written a cell is listed for it. -/
  written : ∀ path rule, (path, rule) ∈ writes → rule ∈ l.writersOf path
  /-- Who is listed first has written the cell. -/
  first : ∀ path rule rest, l.writersOf path = rule :: rest → (path, rule) ∈ writes
  /-- Writers are listed in the order of their turns. -/
  ordered : ∀ path, (distinct (l.writersOf path)).Sublist order

/-- What the records tell of the writes that went through. -/
structure Disputes (l : Ledger) (order : List String) (writes : List (String × String)) :
    Prop where
  /-- A cell without a record has been written by one rule at most. -/
  calm : ∀ path, (∀ r ∈ l.records, r.path ≠ path) →
    ∀ rule other, (path, rule) ∈ writes → (path, other) ∈ writes → rule = other
  /-- A cell with a record has been written by two rules. -/
  disputed : ∀ r ∈ l.records,
    ∃ rule other, rule ≠ other ∧ (r.path, rule) ∈ writes ∧ (r.path, other) ∈ writes
  /-- Records list rules once, in the order of their turns. -/
  parties : ∀ r ∈ l.records, r.conflictingRules.Nodup ∧ r.conflictingRules.Sublist order
  /-- The last record of a cell lists all who have written it and tells what it holds. -/
  last : ∀ path r, lastOn? l.records path = some r →
    (∀ rule, (path, rule) ∈ writes → rule ∈ r.conflictingRules) ∧
      ∃ entry, l.entries.get? path = some entry ∧ r.result.finalValue = entry.value.marked

section Turns

variable {l l' : Ledger} {w w' : World} {request : WriteRequest} {entry : CellEntry}
  {result : Except Failure WriteOutcome} {former order : List String}
  {writes : List (String × String)}

theorem lists_begun (policy : Policy) (tick : Value) : ((new policy).beginTick tick).Lists [] [] :=
  ⟨fun _ _ h => (List.not_mem_nil h).elim, fun _ _ _ h => (nomatch h), fun _ => List.nil_sublist _⟩

theorem disputes_begun (policy : Policy) (tick : Value) :
    ((new policy).beginTick tick).Disputes [] [] :=
  ⟨fun _ _ _ _ h => (List.not_mem_nil h).elim, fun _ h => (List.not_mem_nil h).elim,
    fun _ h => (List.not_mem_nil h).elim, fun _ _ h => nomatch h⟩

/-- A rule that gets its turn has written nothing yet. -/
theorem Lists.turn (h : l.Lists order writes) (rule : String) :
    l.Lists (order ++ [rule]) writes :=
  ⟨h.written, h.first, fun path => (h.ordered path).trans (List.sublist_append_left _ _)⟩

theorem Disputes.turn (h : l.Disputes order writes) (rule : String) :
    l.Disputes (order ++ [rule]) writes :=
  ⟨h.calm, h.disputed, fun r hr => ⟨(h.parties r hr).1,
    (h.parties r hr).2.trans (List.sublist_append_left _ _)⟩, h.last⟩

/-- A write that goes through is listed; that of another rule than the first writer may
fail and is listed all the same. -/
theorem Lists.of_end (h : l.Lists (former ++ [request.ruleId]) writes)
    (hend : End l w request l' w' result) :
    l'.Lists (former ++ [request.ruleId]) (writes ++ request.booking result) := by
  have hbooked : ∀ {path rule}, (path, rule) ∈ request.booking result →
      path = request.path ∧ rule = request.ruleId := by
    intro path rule hwrite
    cases result with
    | error => cases hwrite
    | ok => exact Prod.mk.inj (List.mem_singleton.mp hwrite)
  rcases writersOf_of_end hend with ⟨rfl, hnone⟩ | ⟨hlists, hopens⟩
  · rw [hnone, List.append_nil]
    exact h
  · refine ⟨?_, ?_, ?_⟩
    · intro path rule hwrite
      rw [hlists]
      rcases List.mem_append.mp hwrite with hbefore | hnow
      · have hlisted := h.written path rule hbefore
        split
        · exact List.mem_append_left _ hlisted
        · exact hlisted
      · obtain ⟨rfl, rfl⟩ := hbooked hnow
        rw [if_pos rfl]
        exact List.mem_append_right _ (List.mem_singleton_self _)
    · intro path rule rest hfirst
      rw [hlists] at hfirst
      split at hfirst
      · rename_i hpath
        subst hpath
        cases hwriters : l.writersOf request.path with
        | nil =>
          rw [hwriters] at hfirst
          obtain ⟨rfl, -⟩ := List.cons.inj hfirst
          rw [hopens hwriters]
          exact List.mem_append_right _ (List.mem_singleton_self _)
        | cons first others =>
          rw [hwriters, List.cons_append] at hfirst
          obtain ⟨rfl, -⟩ := List.cons.inj hfirst
          exact List.mem_append_left _ (h.first _ _ _ hwriters)
      · exact List.mem_append_left _ (h.first _ _ _ hfirst)
    · intro path
      rw [hlists]
      split
      · exact sublist_distinct_concat (h.ordered path)
      · exact h.ordered path

/-- A cell that lists one rule only has no record. -/
theorem Disputes.calm_of_sole (h : l.Disputes order writes) (hlists : l.Lists order writes)
    {path rule : String} (hsole : ∀ id ∈ l.writersOf path, id = rule) :
    ∀ r ∈ l.records, r.path ≠ path := by
  rintro r hr rfl
  obtain ⟨one, other, hne, hone, hother⟩ := h.disputed r hr
  have hsame := hsole other (hlists.written _ _ hother)
  exact hne ((hsole one (hlists.written _ _ hone)).trans hsame.symm)

/-- As long as one rule writes a cell there is nothing to record. -/
theorem Disputes.put_sole (h : l.Disputes order writes) (hlists : l.Lists order writes)
    (hsole : ∀ id ∈ l.writersOf request.path, id = request.ruleId) (entry : CellEntry) :
    (l.put request.path entry).Disputes order (writes ++ [(request.path, request.ruleId)]) := by
  have hnone := h.calm_of_sole hlists hsole
  refine ⟨?_, ?_, h.parties, ?_⟩
  · intro path hcalm rule other hrule hother
    by_cases hpath : path = request.path
    · subst hpath
      have hown : ∀ id, (request.path, id) ∈ writes ++ [(request.path, request.ruleId)] →
          id = request.ruleId := by
        intro id hid
        rcases rule_of_mem_concat hid with hformer | hnow
        · exact hsole id (hlists.written _ _ hformer)
        · exact hnow
      exact (hown rule hrule).trans (hown other hother).symm
    · exact h.calm path hcalm rule other (mem_of_mem_concat hrule hpath)
        (mem_of_mem_concat hother hpath)
  · intro r hr
    obtain ⟨rule, other, hne, hrule, hother⟩ := h.disputed r hr
    exact ⟨rule, other, hne, List.mem_append_left _ hrule, List.mem_append_left _ hother⟩
  · intro path r hr
    obtain ⟨hmem, hrecord⟩ := mem_of_lastOn? hr
    have hpath : path ≠ request.path := hrecord ▸ hnone r hmem
    obtain ⟨hall, held, hheld, hvalue⟩ := h.last path r hr
    refine ⟨fun rule hrule => hall rule (mem_of_mem_concat hrule hpath), held, ?_, hvalue⟩
    rw [get?_put, if_neg hpath]
    exact hheld

/-- A write that fails changes nothing about what is recorded. -/
theorem Disputes.put_listing (h : l.Disputes order writes)
    (hentry : l.entries.get? request.path = some entry) :
    (l.put request.path (entry.listing request)).Disputes order writes := by
  refine ⟨h.calm, h.disputed, h.parties, ?_⟩
  intro path r hr
  obtain ⟨hall, held, hheld, hvalue⟩ := h.last path r hr
  rw [get?_put]
  split
  · rename_i hpath
    rw [hpath, hentry] at hheld
    cases hheld
    exact ⟨hall, _, rfl, hvalue⟩
  · exact ⟨hall, held, hheld, hvalue⟩

/-- Where a rule that has its turn is not the only one that a cell lists, another one has
written the cell: the rules that had their turns before are listed first. -/
theorem Lists.first_of_others (h : l.Lists (former ++ [request.ruleId]) writes)
    (hnew : request.ruleId ∉ former) (hentry : l.entries.get? request.path = some entry)
    (hothers : ¬ entry.SoleWriter request.ruleId) :
    ∃ first, first ≠ request.ruleId ∧ (request.path, first) ∈ writes := by
  have hwriters := writersOf_of_get? hentry
  rw [CellEntry.soleWriter_iff, ← hwriters] at hothers
  cases hlisted : l.writersOf request.path with
  | nil =>
    rw [hlisted] at hothers
    exact absurd (fun _ hid => (List.not_mem_nil hid).elim) hothers
  | cons first rest =>
    refine ⟨first, ?_, h.first _ _ _ hlisted⟩
    rintro rfl
    apply hothers
    rw [hlisted]
    exact eq_of_distinct_sublist (hlisted ▸ h.ordered request.path) hnew

/-- A record lists the writers of its cell and the rule that has its turn. -/
theorem conflictingRules_recordOf (hentry : l.entries.get? request.path = some entry) :
    (l.recordOf request.path (entry.listing request)
      (l.resolution entry request)).conflictingRules =
        distinct (l.writersOf request.path ++ [request.ruleId]) := by
  simp [recordOf, writersOf_of_get? hentry, CellEntry.listing, CellEntry.ruleIds]

/-- A conflict that is settled is recorded. -/
theorem Disputes.settled (h : l.Disputes (former ++ [request.ruleId]) writes)
    (hlists : l.Lists (former ++ [request.ruleId]) writes) (hnew : request.ruleId ∉ former)
    (hentry : l.entries.get? request.path = some entry)
    (hothers : ¬ entry.SoleWriter request.ruleId) :
    (l.settled entry request).Disputes (former ++ [request.ruleId])
      (writes ++ [(request.path, request.ruleId)]) := by
  have hids := conflictingRules_recordOf hentry
  obtain ⟨first, hfirst, hwrote⟩ := hlists.first_of_others hnew hentry hothers
  constructor
  · intro path hcalm rule other hrule hother
    have hpath : path ≠ request.path := by
      rintro rfl
      exact hcalm _ (List.mem_append_right _ (List.mem_singleton_self _)) rfl
    exact h.calm path (fun r hr => hcalm r (List.mem_append_left _ hr)) rule other
      (mem_of_mem_concat hrule hpath) (mem_of_mem_concat hother hpath)
  · intro r hr
    rcases List.mem_append.mp hr with hformer | hlast
    · obtain ⟨rule, other, hne, hrule, hother⟩ := h.disputed r hformer
      exact ⟨rule, other, hne, List.mem_append_left _ hrule, List.mem_append_left _ hother⟩
    · rw [List.mem_singleton.mp hlast]
      exact ⟨first, request.ruleId, hfirst, List.mem_append_left _ hwrote,
        List.mem_append_right _ (List.mem_singleton_self _)⟩
  · intro r hr
    rcases List.mem_append.mp hr with hformer | hlast
    · exact h.parties r hformer
    · rw [List.mem_singleton.mp hlast, hids]
      exact ⟨nodup_distinct _, sublist_distinct_concat (hlists.ordered request.path)⟩
  · intro path r hr
    have hget : (l.settled entry request).entries.get? path = if path = request.path then
        some (settledEntry (entry.listing request) (l.resolution entry request))
        else l.entries.get? path := get?_put l request.path _ path
    rw [Ledger.settled, lastOn?_concat] at hr
    rw [hget]
    split at hr
    · rename_i hpath
      obtain rfl : request.path = path := hpath
      cases hr
      refine ⟨fun rule hrule => ?_, _, if_pos rfl, rfl⟩
      rw [hids, mem_distinct, List.mem_append]
      rcases rule_of_mem_concat hrule with hformer | hnow
      · exact .inl (hlists.written _ _ hformer)
      · exact .inr (List.mem_singleton.mpr hnow)
    · rename_i hpath
      have hother : path ≠ request.path := fun heq => hpath heq.symm
      rw [if_neg hother]
      obtain ⟨hall, hheld⟩ := h.last path r hr
      exact ⟨fun rule hrule => hall rule (mem_of_mem_concat hrule hother), hheld⟩

/-- Every write leaves the records in accordance with what went through. -/
theorem Disputes.of_end (h : l.Disputes (former ++ [request.ruleId]) writes)
    (hlists : l.Lists (former ++ [request.ruleId]) writes) (hnew : request.ruleId ∉ former)
    (hend : End l w request l' w' result) :
    l'.Disputes (former ++ [request.ruleId]) (writes ++ request.booking result) := by
  cases hend with
  | refused =>
    simp only [WriteRequest.booking, List.append_nil]
    exact h
  | opened hfresh =>
    refine h.put_sole hlists ?_ _
    simp [writersOf, hfresh]
  | updated hentry hsole =>
    refine h.put_sole hlists ?_ _
    rw [writersOf_of_get? hentry]
    exact CellEntry.soleWriter_iff.mp hsole
  | withheld hentry =>
    simp only [WriteRequest.booking, List.append_nil]
    exact h.put_listing hentry
  | settled hentry hothers => exact h.settled hlists hnew hentry hothers

end Turns

section Numbers

variable {l l' : Ledger} {w w' : World} {request : WriteRequest}
  {result : Except Failure WriteOutcome}

def added : Except Failure WriteOutcome → List ConflictRecord
  | .ok outcome => outcome.conflict.toList
  | .error _ => []

theorem records_eq_of_end (hend : End l w request l' w' result) :
    l'.records = l.records ++ added result := by
  cases hend with
  | refused | opened | updated | withheld => exact (List.append_nil _).symm
  | settled => rfl

def recordId (tick : Value) (place : Nat) : String :=
  "conflict-" ++ tick.plainText ++ "-" ++ (place + 1).repr

theorem recordId_inj {tick : Value} {i j : Nat} (h : recordId tick i = recordId tick j) :
    i = j := by
  have hplace := Number.repr_inj ((String.append_right_inj _).mp h)
  omega

def Numbered (l : Ledger) : Prop :=
  l.records.map (·.id) = (List.range l.records.length).map (recordId l.tick)

theorem Numbered.nodup (h : l.Numbered) : (l.records.map (·.id)).Nodup := by
  rw [h]
  exact List.nodup_range.map fun _ _ => recordId_inj

theorem Numbered.of_end (h : l.Numbered) (hend : End l w request l' w' result) : l'.Numbered := by
  cases hend with
  | refused | opened | updated | withheld => exact h
  | @settled entry =>
    have hrecords : (l.settled entry request).records = l.records ++
        [l.recordOf request.path (entry.listing request) (l.resolution entry request)] := rfl
    unfold Numbered at h ⊢
    rw [hrecords, List.map_append, h, List.length_append, List.length_singleton, List.range_succ,
      List.map_append]
    rfl

end Numbers

end Ledger

end Harbormaster
