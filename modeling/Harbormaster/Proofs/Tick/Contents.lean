import Harbormaster.Proofs.Conflict.Books
import Harbormaster.Proofs.Conflict.Values
import Harbormaster.Proofs.Rule.Accepted
import Harbormaster.Proofs.Tick.Steps
import Harbormaster.Proofs.World.Contents

/-!
What rules leave in a world of items of a kind. An action of a well-typed rule writes a
literal, something that was read or a number that was worked out, and a conflict ends in such
a value or in one that the cell had; events carry nothing else either. So nothing comes into
the world that is not made of the same items. Whether numbers stay finite is another matter:
sums and averages need not.
-/

namespace Harbormaster

namespace Value

theorem isStorable_of_fits {v : Value} (h : v.fits = true) (hthere : v.given?.isSome) :
    v.isStorable = true := by
  cases v with
  | missing | absent => cases hthere
  | boolean | number | text | list | record | native | fallback => exact h

theorem isStorable_given {v standard : Value} (h : v.fits = true)
    (hstandard : standard.isStorable = true) : (v.given?.getD standard).isStorable = true := by
  cases v with
  | missing | absent => exact hstandard
  | boolean | number | text | list | record | native | fallback => exact h

end Value

namespace Deed

variable {item : Value → Bool} {w : World} {action : Action} {rule : Rule}
  {known : String → Bool}

/-- A parameter that fits and has to be there is something. -/
theorem isStorable_of_require {name : String} {v : Value}
    (hfits : (action.parameter name).fits = true) (h : action.require name = .ok v) :
    v.isStorable = true := by
  have heq := eq_of_require h
  rw [← heq] at hfits
  apply Value.isStorable_of_fits hfits
  unfold Action.require at h
  dsimp only at h
  rw [← heq] at h
  cases v with
  | missing | absent => cases h
  | boolean | number | text | list | record | native | fallback => rfl

theorem isStorable_of_requireValue {v : Value} (htyped : action.Typed)
    (h : action.requireValue = .ok v) : v.isStorable = true := by
  have hfits := htyped.value
  unfold Action.requireValue at h
  generalize action.value = raw at h hfits
  cases raw with
  | missing | absent => cases h
  | boolean | number | text | list | record | native | fallback =>
    cases h
    exact hfits

/-- What a well-typed action writes is made of what the world is made of. -/
theorem madeOf_of_write {target message : String} {value before : Value}
    {range : Option ClampRange} (hitem : Value.Items item) (htyped : action.Typed)
    (hw : w.MadeOf item)
    (h : ofAction known rule action w = .ok (.write target value range before message)) :
    value.isMadeOf item = true := by
  cases of_ofAction h with
  | write _ _ habsent hsource =>
    rcases hsource with ⟨n, rfl⟩ | ⟨raw, hraw, hresolved⟩
    · exact Value.isMadeOf_of_item hitem (hitem.scalar rfl)
    · have hstorable := isStorable_of_requireValue htyped hraw
      exact (hw.of_resolve hitem hstorable hresolved).resolve_right habsent

/-- So is what a well-typed action has events tell. -/
theorem madeOf_of_payload {entries : List (String × Value)} {done members : Record Value}
    (hitem : Value.Items item) (hw : w.MadeOf item) (hdone : done.MadeOf item)
    (hentries : ∀ entry ∈ entries, entry.2.isStorable = true)
    (h : payload w done entries = .ok members) : members.MadeOf item := by
  induction entries generalizing done with
  | nil =>
    cases h
    exact hdone
  | cons entry rest ih =>
    obtain ⟨hfirst, hrest⟩ := List.forall_mem_cons.mp hentries
    unfold payload at h
    split at h
    · cases h
    · exact ih hdone hrest h
    · rename_i value habsent hresolved
      refine ih ?_ hrest h
      split
      · exact hdone
      · exact Record.All.set hdone
          ((hw.of_resolve hitem hfirst hresolved).resolve_right habsent) _

end Deed

namespace EventBus

theorem get?_eventOf (b : EventBus) (request : SpawnRequest) (name : String) :
    (b.eventOf request).members.get? name =
      if name = "severity" then some (request.severity.given?.getD Event.standardSeverity)
      else if name = "payload" then some (.record request.payload)
      else if name = "eventType" then some request.eventType
      else if name = "timestamp" then some b.tick
      else if name = "sourceRule" then some request.sourceRule
      else if name = "id" then some (.text (Digest.identifier scope
        (eventName b.tick b.spawned.length request.sourceRule request.eventType)))
      else none := by
  simp only [eventOf, Record.ofList, List.foldl_cons, List.foldl_nil, Record.get?_set]
  rfl

structure MadeOf (item : Value → Bool) (b : EventBus) : Prop where
  events : b.events.All fun e => e.members.MadeOf item
  tick : b.tick.isMadeOf item = true

variable {item : Value → Bool} {b : EventBus} {request : SpawnRequest}

structure Requests (item : Value → Bool) (request : SpawnRequest) : Prop where
  eventType : request.eventType.isStorable = true
  sourceRule : request.sourceRule.isStorable = true
  payload : request.payload.MadeOf item
  severity : request.severity.fits = true

theorem madeOf_eventOf (hitem : Value.Items item) (htick : b.tick.isMadeOf item = true)
    (h : Requests item request) : (b.eventOf request).members.MadeOf item := by
  intro entry hentry
  have hmember := Record.mem_ofList hentry
  simp only [List.mem_cons, List.not_mem_nil, or_false] at hmember
  rcases hmember with rfl | rfl | rfl | rfl | rfl | rfl
  · exact Value.isMadeOf_of_item hitem (hitem.scalar rfl)
  · exact Value.isMadeOf_of_isStorable hitem h.sourceRule
  · exact htick
  · exact Value.isMadeOf_of_isStorable hitem h.eventType
  · exact Value.isMadeOf_record_iff.mpr h.payload
  · exact Value.isMadeOf_of_isStorable hitem (Value.isStorable_given h.severity rfl)

end EventBus

namespace Ledger

variable {item : Value → Bool} {l l' : Ledger} {w w' : World} {request : WriteRequest}
  {entry : CellEntry} {result : Except Failure WriteOutcome}

def MadeOf (item : Value → Bool) (l : Ledger) : Prop :=
  l.entries.All fun entry => entry.base.isMadeOf item = true ∧ entry.value.isMadeOf item = true

theorem MadeOf.put (h : l.MadeOf item) (path : String) (entry : CellEntry)
    (hbase : entry.base.isMadeOf item = true) (hvalue : entry.value.isMadeOf item = true) :
    (l.put path entry).MadeOf item :=
  Record.All.set h ⟨hbase, hvalue⟩ path

theorem MadeOf.resolution (hitem : Value.Items item) (h : l.MadeOf item)
    (hentry : l.entries.get? request.path = some entry)
    (hvalue : request.value.isMadeOf item = true) :
    (l.resolution entry request).value.isMadeOf item = true := by
  obtain ⟨hbase, hheld⟩ := Record.All.get? h hentry
  rcases l.resolution_value entry request with hval | hval | hval | ⟨n, hval⟩
  · rw [hval]
    exact hvalue
  · rw [hval]
    exact hheld
  · rw [hval]
    exact hbase
  · rw [hval]
    exact Value.isMadeOf_of_item hitem (hitem.scalar rfl)

/-- However a write ends, cells and ledger come to hold nothing else. -/
theorem madeOf_of_end (hitem : Value.Items item) (hl : l.MadeOf item) (hw : w.MadeOf item)
    (hvalue : request.value.isMadeOf item = true) (hend : End l w request l' w' result) :
    l'.MadeOf item ∧ w'.MadeOf item := by
  cases hend with
  | refused => exact ⟨hl, hw⟩
  | @opened base _ _ hbase hworld =>
    exact ⟨hl.put _ (firstEntry base request) (hw.of_peek hitem hbase) hvalue,
      hw.write hvalue hworld⟩
  | @updated entry _ hentry _ hworld =>
    exact ⟨hl.put _ (updatedEntry entry request) (Record.All.get? hl hentry).1 hvalue,
      hw.write hvalue hworld⟩
  | @withheld entry _ hentry =>
    obtain ⟨hbase, hheld⟩ := Record.All.get? hl hentry
    exact ⟨hl.put _ (entry.listing request) hbase hheld, hw⟩
  | @settled entry _ hentry _ hworld =>
    have hresolution := hl.resolution hitem hentry hvalue
    exact ⟨hl.put _ (settledEntry (entry.listing request) (l.resolution entry request))
      (Record.All.get? hl hentry).1 hresolution, madeOf_of_apply hw hresolution hworld⟩

theorem events_of_end (hend : End l w request l' w' result) : w'.events = w.events := by
  cases hend with
  | refused | withheld => rfl
  | opened _ _ hworld | updated _ _ hworld => exact World.events_of_write hworld
  | settled _ _ hworld => exact events_of_apply hworld

end Ledger

namespace Stage

variable {item : Value → Bool} {s s' : Stage} {known : String → Bool} {rule : Rule}
  {action : Action}

structure MadeOf (item : Value → Bool) (s : Stage) : Prop where
  world : s.world.MadeOf item
  ledger : s.ledger.MadeOf item
  bus : s.bus.MadeOf item

/-- An action of a well-typed rule leaves nothing else there. -/
theorem MadeOf.step (hitem : Value.Items item) (h : s.MadeOf item) (htyped : action.Typed)
    (hstep : Step s known rule action s') : s'.MadeOf item := by
  cases hstep with
  | nothing => exact h
  | wrote hdeed hend =>
    have hvalue := Deed.madeOf_of_write hitem htyped h.world hdeed
    obtain ⟨hledger, hworld⟩ := Ledger.madeOf_of_end hitem h.ledger h.world hvalue hend
    exact ⟨hworld, hledger, h.bus⟩
  | spawned hdeed =>
    cases Deed.of_ofAction hdeed with
    | @spawn source type members _ htype hpayload =>
      have hrequests : EventBus.Requests item ⟨type, source, members, action.eventSeverity⟩ :=
        ⟨Deed.isStorable_of_require htyped.eventType htype, rfl,
          Deed.madeOf_of_payload hitem h.world Record.all_empty htyped.payload hpayload,
          htyped.eventSeverity⟩
      have hevent := EventBus.madeOf_eventOf hitem h.bus.tick hrequests
      exact ⟨⟨h.world.fields, h.world.environment, h.world.metrics, h.world.events.set hevent _⟩,
        h.ledger, h.bus.events.set hevent _, h.bus.tick⟩

theorem MadeOf.after (hitem : Value.Items item) (h : s.MadeOf item)
    {steps : List (Rule × Action)} (htyped : ∀ step ∈ steps, step.2.Typed) :
    (s.after known steps).MadeOf item :=
  after_preserves_of_mem
    (fun step hstep _ _ hs hnext => hs.step hitem (htyped step hstep) hnext) h

/-- No action gives a name twice. -/
theorem distinct_after (h : s.world.Distinct) (steps : List (Rule × Action)) :
    (s.after known steps).world.Distinct := by
  refine after_preserves (P := fun s => s.world.Distinct) ?_ h steps
  intro s s' rule action hdistinct hstep
  cases hstep with
  | nothing => exact hdistinct
  | wrote _ hend => exact Ledger.distinct_of_end hdistinct hend
  | spawned => exact ⟨hdistinct.fields, hdistinct.environment, hdistinct.metrics⟩

end Stage

end Harbormaster
