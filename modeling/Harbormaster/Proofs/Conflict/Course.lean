import Harbormaster.Proofs.Conflict.Books
import Harbormaster.Proofs.Conflict.Priorities

/-!
The course of the writes of a tick. Some of the writes that are asked for go through and the
others fail, in any order; the ledger is judged by both, since a cell lists its writers from
the first write that goes through, and from then on also some that fail. What the ledger
knows of a cell comes about in four ways, and so whatever all of these keep holds after every
course.
-/

namespace Harbormaster

/-- What a write adds to those that have gone through: itself with the world that it found, or
nothing if it failed. -/
def WriteRequest.passage (request : WriteRequest) (w : World) :
    Except Failure WriteOutcome → List (WriteRequest × World)
  | .ok _ => [(request, w)]
  | .error _ => []

namespace Ledger

/-- The writes that go through, each with the world that it finds. -/
def accepted (l : Ledger) (w : World) : List WriteRequest → List (WriteRequest × World)
  | [] => []
  | request :: rest =>
    request.passage w (l.write w request).outcome ++
      (l.write w request).ledger.accepted (l.write w request).world rest

/-- Writes one after the other: those that are asked for, those that go through, and the ledger
and the world that they lead to. -/
inductive Course (l : Ledger) (w : World) :
    List WriteRequest → List (WriteRequest × World) → Ledger → World → Prop where
  | begun : Course l w [] [] l w
  | written {asked : List WriteRequest} {passed : List (WriteRequest × World)}
      {l₁ l₂ : Ledger} {w₁ w₂ : World} {request : WriteRequest}
      {result : Except Failure WriteOutcome} (hbefore : Course l w asked passed l₁ w₁)
      (hend : End l₁ w₁ request l₂ w₂ result) :
      Course l w (asked ++ [request]) (passed ++ request.passage w₁ result) l₂ w₂

variable {l l' : Ledger} {w w' start : World} {request : WriteRequest} {entry : CellEntry}
  {result : Except Failure WriteOutcome} {asked : List WriteRequest}
  {passed : List (WriteRequest × World)} {path : String}

/-- A course goes on with every further write. -/
theorem Course.writeEach (h : Course l w asked passed l' w') (requests : List WriteRequest) :
    Course l w (asked ++ requests) (passed ++ l'.accepted w' requests) (l'.writeEach w' requests).1
      (l'.writeEach w' requests).2 := by
  induction requests generalizing l' w' asked passed with
  | nil => simpa [accepted, Ledger.writeEach] using h
  | cons request rest ih =>
    have hnext := ih (h.written (end_write l' w' request))
    rwa [List.append_assoc, List.append_assoc] at hnext

theorem course_writeEach (l : Ledger) (w : World) (requests : List WriteRequest) :
    Course l w requests (l.accepted w requests) (l.writeEach w requests).1
      (l.writeEach w requests).2 :=
  Course.begun.writeEach requests

/-- What holds of the entry of a cell holds of it after a write too, if it holds of every first
entry of the cell and every further write keeps it. -/
theorem entry_of_end {P : CellEntry → Prop} (hend : End l w request l' w' result)
    (h : ∀ entry, l.entries.get? path = some entry → P entry)
    (hopened : request.path = path → l.entries.get? path = none →
      ∀ base, w.peek path = .ok base → P (firstEntry base request))
    (hupdated : request.path = path → ∀ entry, l.entries.get? path = some entry → P entry →
      P (updatedEntry entry request))
    (hlisted : request.path = path → ∀ entry, l.entries.get? path = some entry → P entry →
      P (entry.listing request))
    (hsettled : request.path = path → ∀ entry, l.entries.get? path = some entry → P entry →
      P (settledEntry (entry.listing request) (l.resolution entry request))) :
    ∀ entry, l'.entries.get? path = some entry → P entry := by
  intro held hheld
  by_cases hpath : request.path = path
  · subst hpath
    cases hend with
    | refused => exact h held hheld
    | opened hfresh hbase =>
      rw [get?_put, if_pos rfl] at hheld
      cases hheld
      exact hopened rfl hfresh _ hbase
    | updated hentry =>
      rw [get?_put, if_pos rfl] at hheld
      cases hheld
      exact hupdated rfl _ hentry (h _ hentry)
    | withheld hentry =>
      rw [get?_put, if_pos rfl] at hheld
      cases hheld
      exact hlisted rfl _ hentry (h _ hentry)
    | settled hentry =>
      rw [settled, get?_put, if_pos rfl] at hheld
      cases hheld
      exact hsettled rfl _ hentry (h _ hentry)
  · rw [(frame_of_end hend fun heq => hpath heq.symm).1] at hheld
    exact h held hheld

/-- A cell keeps the writers that it lists. -/
theorem writers_kept_of_end (hend : End l w request l' w' result)
    (hentry : l.entries.get? path = some entry) :
    ∃ later, l'.entries.get? path = some later ∧ entry.writers ⊆ later.writers := by
  by_cases hpath : path = request.path
  · subst hpath
    have hgrows : entry.writers ⊆ entry.writers ++ [request] := List.subset_append_left _ _
    cases hend with
    | refused => exact ⟨entry, hentry, List.Subset.refl _⟩
    | opened hfresh =>
      rw [hentry] at hfresh
      cases hfresh
    | updated hheld | withheld hheld | settled hheld =>
      rw [hentry] at hheld
      cases hheld
      exact ⟨_, (get?_put _ _ _ _).trans (if_pos rfl), hgrows⟩
  · exact ⟨entry, (frame_of_end hend hpath).1.trans hentry, List.Subset.refl _⟩

/-- A write that goes through is listed by its cell. -/
theorem writer_of_end {outcome : WriteOutcome} (hend : End l w request l' w' (.ok outcome)) :
    ∃ entry, l'.entries.get? request.path = some entry ∧ request ∈ entry.writers := by
  cases hend with
  | opened => exact ⟨_, (get?_put _ _ _ _).trans (if_pos rfl), List.mem_singleton.mpr rfl⟩
  | updated | settled => exact ⟨_, (get?_put _ _ _ _).trans (if_pos rfl), List.mem_concat_self⟩

/-- A write of another cell is not the first one of this cell. -/
theorem find?_passage (hother : request.path ≠ path) :
    (request.passage w result).find? (·.1.path = path) = none := by
  cases result with
  | ok => simp [WriteRequest.passage, hother]
  | error => rfl

section Begun

variable {tick : Value}

/-- Writes to cells that nothing else answers for keep the ledger in step. -/
theorem Course.tracks (h : Course (l.beginTick tick) start asked passed l' w')
    (howns : ∀ request ∈ asked, start.Owns request.path) : l'.Tracks start w' := by
  induction h with
  | begun => exact tracks_begun l.policy tick start
  | written _ hend ih =>
    have hformer := ih fun other hother => howns other (List.mem_append_left _ hother)
    exact hformer.of_end (howns _ List.mem_concat_self) hend

/-- The cell of an entry is a location. -/
theorem Course.exists_location (h : Course (l.beginTick tick) start asked passed l' w') :
    ∀ entry, l'.entries.get? path = some entry → ∃ location, Path.parse? path = some location := by
  induction h with
  | begun => exact fun _ hentry => nomatch hentry
  | written _ hend ih =>
    refine entry_of_end hend ih ?_ (fun _ _ _ => id) (fun _ _ _ => id) fun _ _ _ => id
    intro _ _ base hbase
    obtain ⟨location, hparse, -⟩ := (World.require_bind_eq_ok_iff _ _ _).mp hbase
    exact ⟨location, hparse⟩

/-- The writers that a cell lists have asked for it. -/
theorem Course.asked_of_writer (h : Course (l.beginTick tick) start asked passed l' w') :
    ∀ entry, l'.entries.get? path = some entry →
      ∀ writer ∈ entry.writers, writer ∈ asked ∧ writer.path = path := by
  induction h with
  | begun => exact fun _ hentry => nomatch hentry
  | @written asked _ _ _ _ _ request _ _ hend ih =>
    have hfurther : request.path = path → ∀ writers : List WriteRequest,
        (∀ writer ∈ writers, writer ∈ asked ++ [request] ∧ writer.path = path) →
        ∀ writer ∈ writers ++ [request], writer ∈ asked ++ [request] ∧ writer.path = path := by
      intro hpath writers hwriters writer hwriter
      rcases List.mem_append.mp hwriter with hformer | hnow
      · exact hwriters writer hformer
      · obtain rfl := List.mem_singleton.mp hnow
        exact ⟨List.mem_append_right _ hnow, hpath⟩
    refine entry_of_end hend ?_ ?_ ?_ ?_ ?_
    · intro entry hentry writer hwriter
      obtain ⟨hasked, hpath⟩ := ih entry hentry writer hwriter
      exact ⟨List.mem_append_left _ hasked, hpath⟩
    · exact fun hpath _ _ _ => hfurther hpath [] fun _ hnone => nomatch hnone
    · exact fun hpath entry _ => hfurther hpath entry.writers
    · exact fun hpath entry _ => hfurther hpath entry.writers
    · exact fun hpath entry _ => hfurther hpath entry.writers

/-- Writes that have gone through are listed by their cells. -/
theorem Course.writer_of_passed (h : Course (l.beginTick tick) start asked passed l' w') :
    ∀ other ∈ passed, ∃ entry, l'.entries.get? other.1.path = some entry ∧
      other.1 ∈ entry.writers := by
  induction h with
  | begun => exact fun _ hnone => nomatch hnone
  | @written _ _ _ _ w₁ _ request result _ hend ih =>
    intro other hother
    rcases List.mem_append.mp hother with hformer | hnow
    · obtain ⟨entry, hentry, hwriter⟩ := ih other hformer
      obtain ⟨later, hlater, hkept⟩ := writers_kept_of_end hend hentry
      exact ⟨later, hlater, hkept hwriter⟩
    · cases result with
      | error => cases hnow
      | ok outcome =>
        obtain rfl := List.mem_singleton.mp hnow
        exact writer_of_end hend

/-- The first write of a cell that goes through opens its entry, with what it finds in the
cell; no write changes that any more. -/
theorem Course.base_eq (h : Course (l.beginTick tick) start asked passed l' w') (path : String) :
    (passed.find? (·.1.path = path)).map (·.2.peek path) =
      (l'.entries.get? path).map fun entry => .ok entry.base := by
  induction h with
  | begun => rfl
  | @written _ _ l₁ _ w₁ _ request result _ hend ih =>
    rw [List.find?_append]
    by_cases hpath : request.path = path
    · subst hpath
      cases hend with
      | refused => simpa [WriteRequest.passage] using ih
      | opened hfresh hbase =>
        rw [hfresh, Option.map_none, Option.map_eq_none_iff] at ih
        simp [ih, WriteRequest.passage, get?_put, hbase, firstEntry]
      | withheld hentry =>
        rw [hentry] at ih
        simpa [WriteRequest.passage, get?_put, CellEntry.listing] using ih
      | updated hentry =>
        rw [hentry, Option.map_some, Option.map_eq_some_iff] at ih
        obtain ⟨first, hfirst, hbase⟩ := ih
        simp [hfirst, hbase, get?_put, updatedEntry]
      | settled hentry =>
        rw [hentry, Option.map_some, Option.map_eq_some_iff] at ih
        obtain ⟨first, hfirst, hbase⟩ := ih
        simp [hfirst, hbase, settled, get?_put, settledEntry, CellEntry.listing]
    · rw [find?_passage hpath, Option.or_none, ih, (frame_of_end hend fun heq => hpath heq.symm).1]

end Begun

end Ledger

end Harbormaster
