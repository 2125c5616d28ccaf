import Harbormaster.Proofs.Expression.Braces
import Harbormaster.Proofs.Expression.Reads

/-!
The sources of events. An evaluation lists the rules whose events its condition reads, and
finds them by looking at what the sides of the condition name; the values of the sides are
found elsewhere. The list is held here against these values: a side reads an event if other
events in its place would give the side another value, or another failure. Sides in braces
are passed over by the list, so it is short of their events. Events under names that all
records share are left out of account, since nobody can tell whether such an event is there.
-/

namespace Harbormaster

/-- Whether an operand is an expression. -/
def Value.isExpression (v : Value) : Bool := v.text?.any Harbormaster.isExpression

namespace World

def withEvent (w : World) (eventType : String) : Option Event → World
  | some event => { w with events := w.events.set eventType event }
  | none => { w with events := w.events.erase eventType }

/-- An operand reads the event of a type, if with another one, or with none, it would come
to something else. -/
def ReadsEvent (w : World) (operand : Value) (eventType : String) : Prop :=
  ∃ found, (w.withEvent eventType found).resolve operand ≠ w.resolve operand

/-- An operand reads an event that is there and was spawned by a rule. -/
def ReadsFrom (w : World) (operand : Value) (rule : String) : Prop :=
  ∃ eventType event, w.events.get? eventType = some event ∧ event.sourceRule = .text rule ∧
    w.ReadsEvent operand eventType

/-- No event has a type under which there is something without it. -/
def OrdinaryEvents (w : World) : Prop :=
  ∀ entry ∈ w.events.entries, (Value.shared? entry.1).isNone = true

instance (w : World) : Decidable w.OrdinaryEvents :=
  inferInstanceAs (Decidable (∀ entry ∈ w.events.entries, (Value.shared? entry.1).isNone = true))

variable {w : World} {operand : Value} {eventType : String} {key : Option String}
  {found : Option Event} {path : Path} {text : String}

theorem OrdinaryEvents.shared?_eq_none (h : w.OrdinaryEvents) {event : Event}
    (hevent : w.events.get? eventType = some event) : Value.shared? eventType = none :=
  Option.isNone_iff_eq_none.mp (h _ (Record.mem_of_get? hevent))

theorem OrdinaryEvents.ne_baseName (h : w.OrdinaryEvents) {event : Event}
    (hevent : w.events.get? eventType = some event) : eventType ≠ Record.baseName := by
  rintro rfl
  cases h.shared?_eq_none hevent

theorem OrdinaryEvents.get?_baseName (h : w.OrdinaryEvents) :
    w.events.get? Record.baseName = none := by
  cases hevent : w.events.get? Record.baseName with
  | none => rfl
  | some event => exact absurd rfl (h.ne_baseName hevent)

theorem get?_withEvent (name : String) : (w.withEvent eventType found).events.get? name =
    if name = eventType then found else w.events.get? name := by
  cases found with
  | none => exact Record.get?_erase _ _ _
  | some event => exact Record.get?_set _ _ _ _

theorem event?_withEvent_self (event : Event) :
    (w.withEvent eventType (some event)).event? eventType = some (.record event.members) := by
  simp [event?, get?_withEvent, Value.counts]

theorem readAt_withEvent (htype : eventType ≠ Record.baseName)
    (hpath : ∀ key, path ≠ .event eventType key) :
    (w.withEvent eventType found).readAt path = w.readAt path := by
  cases path with
  | agentField | environmentField | metric => cases found <;> rfl
  | event other key =>
    have hother : other ≠ eventType := fun heq => hpath key (heq ▸ rfl)
    simp only [readAt, event?, get?_withEvent, if_neg hother, if_neg htype.symm]

/-- Texts that do not spell the event are read alike with another one. -/
theorem readAlike_withEvent (w : World) (htype : eventType ≠ Record.baseName)
    (found : Option Event) :
    ReadAlike (fun path => ∀ key, path ≠ .event eventType key) (w.withEvent eventType found) w :=
  fun _ hon => Agrees.require_bind hon fun _ => readAt_withEvent htype

/-- Only events that are named in an operand are read by it. -/
theorem ReadsEvent.mem_reads (h : w.ReadsEvent operand eventType)
    (htype : eventType ≠ Record.baseName) : ∃ key, Path.event eventType key ∈ operand.reads := by
  obtain ⟨found, hfound⟩ := h
  by_contra hnone
  refine hfound (resolve_congr (w.readAlike_withEvent htype found) fun path hpath key heq => ?_)
  exact hnone ⟨key, heq ▸ hpath⟩

/-- Where two events make a difference, one of them differs from the event that is there. -/
theorem readsEvent_of_ne (found other : Option Event)
    (h : (w.withEvent eventType found).resolve operand ≠
      (w.withEvent eventType other).resolve operand) : w.ReadsEvent operand eventType := by
  by_contra hnone
  have hsame : ∀ found, (w.withEvent eventType found).resolve operand = w.resolve operand :=
    fun found => not_not.mp fun hne => hnone ⟨found, hne⟩
  exact h ((hsame found).trans (hsame other).symm)

theorem read_of_parse? (h : Path.parse? text = some path) (w : World) :
    w.read text = w.readAt path := by
  unfold World.read Path.require
  rw [h]
  rfl

/-- An event that is there is read at a key as what it has there. -/
theorem readAt_holding_some (n : Number) (key : String) :
    (w.withEvent eventType (some (.holding n key))).readAt (.event eventType (some key)) =
      .ok (.number n) := by
  simp only [readAt, event?_withEvent_self]
  exact Event.read_holding n key

theorem zero_ne_one : (0 : Number) ≠ 1 := by decide +kernel

/-- A path reads its event: there the presence of the event makes a difference, or the number
under its key does. -/
theorem readsEvent_of_parse? (h : Path.parse? text = some (.event eventType key))
    (hbase : w.events.get? Record.baseName = none) (hshared : Value.shared? eventType = none) :
    w.ReadsEvent (.text text) eventType := by
  have hresolve : ∀ found, (w.withEvent eventType found).resolve (.text text) =
      (w.withEvent eventType found).readAt (.event eventType key) := fun found =>
    (Expression.resolve_of_parse? h _).trans (read_of_parse? h _)
  cases key with
  | some key =>
    refine readsEvent_of_ne (some (.holding 0 key)) (some (.holding 1 key)) ?_
    rw [hresolve, hresolve, readAt_holding_some, readAt_holding_some]
    exact fun hsame => zero_ne_one (Value.number.inj (Except.ok.inj hsame))
  | none =>
    have hgone : (w.withEvent eventType none).event? eventType = none := by
      have hbase' : (w.withEvent eventType none).events.get? Record.baseName = none := by
        rw [get?_withEvent]
        split
        · rfl
        · exact hbase
      simp [event?, get?_withEvent, hbase', hshared]
    refine readsEvent_of_ne (some (.holding 0 "")) none ?_
    rw [hresolve, hresolve]
    simp only [readAt, event?_withEvent_self, hgone]
    intro hsame
    cases hsame

/-- In braces it does so as well. -/
theorem readsEvent_braced {key : String}
    (h : Path.parse? text = some (.event eventType (some key))) (hhyphen : '-' ∉ text.toList)
    (w : World) : w.ReadsEvent (.text (Expression.braced text)) eventType := by
  have hread : ∀ n, (w.withEvent eventType (some (.holding n key))).resolve
      (.text (Expression.braced text)) = .ok (.number n) := by
    intro n
    refine Expression.resolve_braced_of_read h hhyphen ?_
    rw [read_of_parse? h]
    exact readAt_holding_some n key
  refine readsEvent_of_ne (some (.holding 0 key)) (some (.holding 1 key)) ?_
  rw [hread, hread]
  exact fun hsame => zero_ne_one (Value.number.inj (Except.ok.inj hsame))

end World

namespace Condition

variable {c : Condition} {w : World} {side : Value} {source : Value} {rule : String}

def sides (c : Condition) : List Value := [c.left, c.right]

theorem isExpression_of_pathOf? {path : Path} (h : pathOf? side = some path) :
    side.isExpression = false := by
  obtain ⟨text, htext, hparse⟩ := Option.bind_eq_some_iff.mp h
  rw [Value.isExpression, htext, Option.any_some, isExpression, Expression.body?_of_parse? hparse]
  rfl

/-- A side that is no expression names whatever it reads. -/
theorem mem_reads_iff {path : Path} (h : side.isExpression = false) :
    path ∈ side.reads ↔ pathOf? side = some path := by
  cases side with
  | text s =>
    have hbody : Expression.body? s = none := by
      simpa [Value.isExpression, Value.text?, isExpression] using h
    rw [Value.reads, hbody]
    simp [pathOf?, Value.text?]
  | missing | absent | boolean | number | list | record | native | fallback =>
    simp [Value.reads, pathOf?, Value.text?]

theorem sourceRule_eq (event : Event) :
    ((Value.record event.members).property? "sourceRule").getD .missing = event.sourceRule := by
  change ((event.members.get? "sourceRule").or none).getD .missing = _
  rw [Option.or_none]
  rfl

/-- What stands for an event is the event, as far as it has a source. -/
theorem exists_event_of_source (hevents : w.OrdinaryEvents) {eventType : String}
    (h : ((w.event? eventType).map fun event =>
      (event.property? "sourceRule").getD .missing) = some (.text rule)) :
    ∃ event, w.events.get? eventType = some event ∧ event.sourceRule = .text rule := by
  obtain ⟨found, hfound, hrule⟩ := Option.map_eq_some_iff.mp h
  have hstands := (Option.filter_eq_some_iff.mp hfound).1
  rw [hevents.get?_baseName] at hstands
  cases hevent : w.events.get? eventType with
  | some event =>
    rw [hevent] at hstands
    cases hstands
    exact ⟨event, rfl, (sourceRule_eq event).symm.trans hrule⟩
  | none =>
    rw [hevent] at hstands
    obtain ⟨thing, rfl⟩ := Value.native_of_shared? hstands
    cases hrule

/-- The source of a side is the rule whose event it reads, if it is no expression. -/
theorem sourceOf?_eq_text_iff (hevents : w.OrdinaryEvents) :
    sourceOf? w side = some (.text rule) ↔
      side.isExpression = false ∧ w.ReadsFrom side rule := by
  constructor
  · intro hsource
    unfold sourceOf? at hsource
    split at hsource
    · rename_i eventType key hpath
      obtain ⟨event, hevent, hrule⟩ := exists_event_of_source hevents hsource
      obtain ⟨text, htext, hparse⟩ := Option.bind_eq_some_iff.mp hpath
      rw [Value.text?_eq_some_iff.mp htext]
      refine ⟨?_, eventType, event, hevent, hrule, World.readsEvent_of_parse? hparse
        hevents.get?_baseName (hevents.shared?_eq_none hevent)⟩
      rw [← Value.text?_eq_some_iff.mp htext]
      exact isExpression_of_pathOf? hpath
    · cases hsource
  · rintro ⟨hplain, eventType, event, hevent, hrule, hreads⟩
    obtain ⟨key, hkey⟩ := hreads.mem_reads (hevents.ne_baseName hevent)
    have hstands : w.event? eventType = some (.record event.members) := by
      simp [World.event?, hevent, Value.counts]
    simp only [sourceOf?, (mem_reads_iff hplain).mp hkey, hstands, Option.map_some, sourceRule_eq,
      hrule]

theorem sameItem_text_iff : source.sameItem (.text rule) = true ↔ source = .text rule := by
  cases source with
  | text => simp [Value.sameItem]
  | missing | absent | boolean | number | list | record | native | fallback => simp [Value.sameItem]

theorem mem_eventSources_iff : .text rule ∈ c.eventSources w ↔
    ∃ side ∈ c.sides, sourceOf? w side = some (.text rule) := by
  unfold eventSources sides
  cases hleft : sourceOf? w c.left with
  | none => cases hright : sourceOf? w c.right <;> simp [hleft, hright, eq_comm]
  | some a =>
    cases hright : sourceOf? w c.right with
    | none => simp [hleft, hright, eq_comm]
    | some b =>
      dsimp only
      by_cases hsame : a.sameItem b = true
      · -- the second one is dropped, and it is the first one if it is a text
        have hdropped : b = .text rule → a = .text rule :=
          fun heq => sameItem_text_iff.mp (heq ▸ hsame)
        rw [if_pos hsame]
        simpa [hleft, hright, eq_comm] using hdropped
      · rw [if_neg hsame]
        simp [hleft, hright, eq_comm]

/-- No source is listed twice. -/
theorem pairwise_eventSources (c : Condition) (w : World) :
    (c.eventSources w).Pairwise fun a b => a.sameItem b = false := by
  unfold eventSources
  split
  · split
    · exact List.pairwise_singleton _ _
    · rename_i hother
      exact List.pairwise_pair.mpr (Bool.not_eq_true _ ▸ hother)
  · exact List.pairwise_singleton _ _
  · exact List.pairwise_singleton _ _
  · exact .nil

/-- Whatever an evaluation comes to, its sources are those of the condition. -/
theorem eventSources_evaluate (c : Condition) (w : World) :
    (c.evaluate w).eventSources = c.eventSources w := by
  unfold evaluate failedEvaluation
  split
  · rfl
  · split
    · rfl
    · split <;> rfl

/-- An evaluation lists the rules of all events that the sides of its condition read, and of
no others. -/
def SourcesComplete (c : Condition) (w : World) : Prop :=
  ∀ rule, .text rule ∈ (c.evaluate w).eventSources ↔ ∃ side ∈ c.sides, w.ReadsFrom side rule

theorem mem_sources_iff (hevents : w.OrdinaryEvents) : .text rule ∈ (c.evaluate w).eventSources ↔
    ∃ side ∈ c.sides, side.isExpression = false ∧ w.ReadsFrom side rule := by
  rw [eventSources_evaluate, mem_eventSources_iff]
  simp only [sourceOf?_eq_text_iff hevents]

theorem sourcesComplete_iff (hevents : w.OrdinaryEvents) : c.SourcesComplete w ↔
    ∀ side ∈ c.sides, side.isExpression = true → ∀ rule, w.ReadsFrom side rule →
      ∃ other ∈ c.sides, other.isExpression = false ∧ w.ReadsFrom other rule := by
  unfold SourcesComplete
  simp only [mem_sources_iff hevents]
  constructor
  · exact fun h side hside _ rule hreads => (h rule).mpr ⟨side, hside, hreads⟩
  · intro h rule
    constructor
    · rintro ⟨side, hside, -, hreads⟩
      exact ⟨side, hside, hreads⟩
    · rintro ⟨side, hside, hreads⟩
      cases hexpression : side.isExpression with
      | false => exact ⟨side, hside, hexpression, hreads⟩
      | true => exact h side hside hexpression rule hreads

/-- A world in which a pilot has seen a storm. -/
def stormy : World :=
  { (default : World) with
    events := .ofList [("storm", ⟨.ofList [("sourceRule", "pilot"),
      ("payload", .record (.ofList [("level", 5)]))]⟩)] }

/-- Whether the storm is heavy, as a comparison of an expression with a number. -/
def heavy : Condition :=
  .between (.text (Expression.braced "events.storm.level")) .greater 3

def threatening : Condition := .between "events.storm" .equal (.boolean true)

end Condition

end Harbormaster
