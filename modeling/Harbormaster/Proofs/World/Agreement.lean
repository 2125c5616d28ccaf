import Harbormaster.Proofs.World.Contents

/-!
Worlds that agree on some of their cells. What a world holds under a path is all that can
be read there, written over or kept in a document, so operations on one path come out
alike in worlds that agree on it, and a write leaves worlds in agreement everywhere else.
Names need not be distinct: a record is looked at with everything it lists under a name.
-/

namespace Harbormaster

namespace Record

variable {α : Type} {r s : Record α} {name other : String}

def only (r : Record α) (name : String) : Record α := ⟨r.entries.filter (·.1 = name)⟩

theorem lookupIn_filter_eq (name : String) (entries : List (String × α)) :
    lookupIn name (entries.filter (·.1 = name)) = lookupIn name entries := by
  induction entries with
  | nil => rfl
  | cons entry rest ih => grind [lookupIn]

@[simp] theorem get?_only (r : Record α) (name : String) :
    (r.only name).get? name = r.get? name :=
  lookupIn_filter_eq name r.entries

theorem get?_congr (h : r.only name = s.only name) : r.get? name = s.get? name := by
  rw [← get?_only r, ← get?_only s, h]

private theorem filter_replaceEntry (name other : String) (value : α)
    (entries : List (String × α)) :
    (replaceEntry name value entries).filter (·.1 = other) =
      if other = name then replaceEntry name value (entries.filter (·.1 = name))
      else entries.filter (·.1 = other) := by
  induction entries with
  | nil => simp [replaceEntry]
  | cons entry rest ih => grind [replaceEntry]

private theorem filter_addEntry_of_ne (hother : other ≠ name) (value : α)
    (entries : List (String × α)) :
    (addEntry name value entries).filter (·.1 = other) = entries.filter (·.1 = other) := by
  induction entries with
  | nil => simp [addEntry, hother.symm]
  | cons entry rest ih => grind [addEntry]

private theorem filter_addEntry_self {entries : List (String × α)}
    (habsent : entries.filter (·.1 = name) = []) (value : α) :
    (addEntry name value entries).filter (·.1 = name) = [(name, value)] := by
  induction entries with
  | nil => simp [addEntry]
  | cons entry rest ih => grind [addEntry]

theorem only_set_of_ne (hother : other ≠ name) (r : Record α) (value : α) :
    (r.set name value).only other = r.only other := by
  unfold only set
  split
  · rw [filter_replaceEntry, if_neg hother]
  · rw [filter_addEntry_of_ne hother]

/-- Writing a member makes the same of the record and of what it lists under the name. -/
theorem only_set (r : Record α) (name : String) (value : α) :
    (r.set name value).only name = (r.only name).set name value := by
  have hsame : (r.only name).contains name = r.contains name := by simp [contains]
  unfold set
  rw [hsame]
  split
  · rename_i hpresent
    exact congrArg Record.mk ((filter_replaceEntry name name value r.entries).trans (if_pos rfl))
  · rename_i habsent
    have hnone : r.entries.filter (·.1 = name) = [] := by
      rw [List.filter_eq_nil_iff]
      intro entry hentry hname
      have hmember : name ∈ r.entries.map (·.1) :=
        List.mem_map.mpr ⟨entry, hentry, of_decide_eq_true hname⟩
      rw [contains, Bool.not_eq_true, Option.isSome_eq_false_iff, Option.isNone_iff_eq_none, get?,
        lookupIn_eq_none_iff] at habsent
      exact habsent hmember
    unfold only
    rw [filter_addEntry_self hnone, hnone]
    rfl

/-- A document keeps what is listed under a name by itself. -/
theorem only_stored (r : Record Value) (name : String) :
    r.stored.only name = (r.only name).stored := by
  obtain ⟨entries⟩ := r
  unfold only stored
  dsimp only
  congr 1
  induction entries with
  | nil => rfl
  | cons entry rest ih =>
    obtain ⟨key, v⟩ := entry
    rw [Value.storedEntries]
    by_cases hkey : key = name
    · split
      · rename_i hform
        simp [Value.storedEntries, hkey, hform, ih]
      · rename_i hform
        simp [Value.storedEntries, hkey, hform, ih]
    · split
      · simp [hkey, ih]
      · simp [hkey, ih]

/-- What a record answers to a name is settled by what it lists under two names. -/
theorem find?_congr_only {r s : Record Value} (hname : r.only name = s.only name)
    (hbase : r.only baseName = s.only baseName) : r.find? name = s.find? name :=
  find?_congr (get?_congr hname) (get?_congr hbase)

theorem only_assign_of_ne {other : String} (hother : other ≠ name) (r : Record Value)
    (value : Value) : (r.assign name value).only other = r.only other := by
  unfold assign
  split
  · split
    · exact only_set_of_ne hother r _
    · rfl
  · exact only_set_of_ne hother r value

/-- Writing a name does the same to records that list the same under it. -/
theorem only_assign_congr {r s : Record Value} {other : String}
    (hname : r.only name = s.only name) (hother : r.only other = s.only other) (value : Value) :
    (r.assign name value).only other = (s.assign name value).only other := by
  by_cases hsame : other = name
  · subst hsame
    have hleads : r.leads other = s.leads other := by
      unfold leads
      rw [get?_congr hname]
    unfold assign
    rw [hleads]
    split
    · split
      · rw [only_set, only_set, hname]
      · exact hname
    · rw [only_set, only_set, hname]
  · rw [only_assign_of_ne hsame, only_assign_of_ne hsame, hother]

theorem get?_stored_congr {r s : Record Value} (h : r.only name = s.only name) :
    r.stored.get? name = s.stored.get? name := by
  apply get?_congr
  rw [only_stored, only_stored, h]

end Record

namespace World

/-- What a world holds under a path: an agent with one of its fields, if there is the
agent, or a member of the environment or of the metrics, each with what tells what its
record falls back on. Events are no cells. -/
inductive Part where
  | agent (found : Option (Agent × Record Value))
  | member (members base : Record Value)
  | nothing

def part (w : World) : Path → Part
  | .agentField agent field =>
    .agent ((w.agents.get? agent).map fun a =>
      ({ a with fields := a.fields.only field }, a.fields.only Record.baseName))
  | .environmentField field =>
    .member (w.environment.only field) (w.environment.only Record.baseName)
  | .metric name => .member (w.metrics.only name) (w.metrics.only Record.baseName)
  | .event .. => .nothing

/-- Two worlds with the same events that hold the same under the given paths. -/
structure Agrees (on : Path → Prop) (u w : World) : Prop where
  events : u.events = w.events
  parts : ∀ path, on path → u.part path = w.part path

variable {u v w u' w' : World} {path other : Path} {text : String} {value : Value}
  {on on' : Path → Prop}

theorem Agrees.refl (on : Path → Prop) (w : World) : Agrees on w w := ⟨rfl, fun _ _ => rfl⟩

theorem Agrees.symm (h : Agrees on u w) : Agrees on w u :=
  ⟨h.events.symm, fun path hpath => (h.parts path hpath).symm⟩

theorem Agrees.trans (huv : Agrees on u v) (hvw : Agrees on v w) : Agrees on u w :=
  ⟨huv.events.trans hvw.events, fun path hpath =>
    (huv.parts path hpath).trans (hvw.parts path hpath)⟩

theorem Agrees.mono (h : Agrees on u w) (hon : ∀ path, on' path → on path) : Agrees on' u w :=
  ⟨h.events, fun path hpath => h.parts path (hon path hpath)⟩

private structure AgentAlike (field : String) (a b : Agent) : Prop where
  id : a.id = b.id
  field : a.fields.only field = b.fields.only field
  base : a.fields.only Record.baseName = b.fields.only Record.baseName
  others : a.others = b.others

/-- Worlds that hold the same under a field have the same agent there, its other fields
apart. -/
private theorem agent_congr {agent field : String}
    (hpart : u.part (.agentField agent field) = w.part (.agentField agent field)) :
    Option.Rel (AgentAlike field) (u.agents.get? agent) (w.agents.get? agent) := by
  have hagent := Part.agent.inj hpart
  generalize u.agents.get? agent = a at hagent ⊢
  generalize w.agents.get? agent = b at hagent ⊢
  cases a with
  | none =>
    cases b with
    | none => exact .none
    | some => cases hagent
  | some a =>
    cases b with
    | none => cases hagent
    | some b =>
      obtain ⟨hsame, hbase⟩ := Prod.mk.inj (Option.some.inj hagent)
      obtain ⟨hid, hfield, hothers⟩ := Agent.mk.inj hsame
      exact .some ⟨hid, hfield, hbase, hothers⟩

section Parts

variable (hpart : u.part path = w.part path)

include hpart

theorem readAt_congr (hevents : u.events = w.events) : u.readAt path = w.readAt path := by
  cases path with
  | event => simp only [readAt, event?, hevents]
  | environmentField field =>
    obtain ⟨hfield, hbase⟩ := Part.member.inj hpart
    simp only [readAt, Record.find?_congr_only hfield hbase]
  | metric name =>
    obtain ⟨hname, hbase⟩ := Part.member.inj hpart
    simp only [readAt, Record.find?_congr_only hname hbase]
  | agentField agent field =>
    have hagent := agent_congr hpart
    simp only [readAt]
    generalize u.agents.get? agent = a at hagent ⊢
    generalize w.agents.get? agent = b at hagent ⊢
    cases hagent with
    | none => rfl
    | some hab => simp only [Record.find?_congr_only hab.field hab.base]

theorem peekAt_congr : u.peekAt path = w.peekAt path := by
  cases path with
  | event => rfl
  | environmentField field =>
    obtain ⟨hfield, hbase⟩ := Part.member.inj hpart
    simp only [peekAt, Record.answer, Record.find?_congr_only hfield hbase]
  | metric name =>
    obtain ⟨hname, hbase⟩ := Part.member.inj hpart
    simp only [peekAt, Record.answer, Record.find?_congr_only hname hbase]
  | agentField agent field =>
    have hagent := agent_congr hpart
    simp only [peekAt]
    generalize u.agents.get? agent = a at hagent ⊢
    generalize w.agents.get? agent = b at hagent ⊢
    cases hagent with
    | none => rfl
    | some hab => simp only [Record.answer, Record.find?_congr_only hab.field hab.base]

/-- A write leaves the same under its path wherever it found the same, or is refused for
the same reason. -/
theorem writeAt_congr (value : Value) :
    (u.writeAt path value).map (·.part path) = (w.writeAt path value).map (·.part path) := by
  cases path with
  | event => rfl
  | environmentField field =>
    obtain ⟨hfield, hbase⟩ := Part.member.inj hpart
    simp only [writeAt]
    split
    · simp only [Except.map, part, Record.only_assign_congr hfield hfield,
        Record.only_assign_congr hfield hbase]
    · rfl
  | metric name =>
    obtain ⟨hname, hbase⟩ := Part.member.inj hpart
    simp only [writeAt]
    split
    · split
      · simp only [Except.map, part, Record.only_assign_congr hname hname,
          Record.only_assign_congr hname hbase]
      · rfl
    · rfl
  | agentField agent field =>
    have hagent := agent_congr hpart
    simp only [writeAt]
    generalize u.agents.get? agent = a at hagent ⊢
    generalize w.agents.get? agent = b at hagent ⊢
    cases hagent with
    | none => rfl
    | some hab =>
      simp [Except.map, part, hab.id, hab.others, Record.only_assign_congr hab.field hab.field,
        Record.only_assign_congr hab.field hab.base]

end Parts

/-- An operation on a cell changes nothing under other paths. -/
theorem part_of_alterAt {f : String → Record Value → Record Value}
    (hf : ∀ name r another, another ≠ name → (f name r).only another = r.only another)
    (h : w.alterAt path f = .ok w') (hname : path.name ≠ Record.baseName) (hother : other ≠ path) :
    w'.part other = w.part other := by
  have hbase : ∀ r : Record Value, (f path.name r).only Record.baseName = r.only Record.baseName :=
    fun r => hf _ r _ hname.symm
  cases alters_of_alterAt h with
  | environmentField field =>
    cases other with
    | environmentField another =>
      exact congrArg₂ Part.member (hf _ _ _ fun heq => hother (congrArg _ heq)) (hbase _)
    | agentField | metric | event => rfl
  | metric name =>
    cases other with
    | metric another =>
      exact congrArg₂ Part.member (hf _ _ _ fun heq => hother (congrArg _ heq)) (hbase _)
    | agentField | environmentField | event => rfl
  | @agentField agent a field ha =>
    cases other with
    | agentField anAgent another =>
      by_cases hagent : anAgent = agent
      · subst hagent
        have hne : another ≠ field := by
          rintro rfl
          exact hother rfl
        have hsame : (f field a.fields).only Record.baseName = a.fields.only Record.baseName :=
          hbase a.fields
        simp [part, ha, hf _ _ _ hne, hsame]
      · simp [part, hagent]
    | environmentField | metric | event => rfl

/-- A write leaves worlds in agreement outside its own path. -/
theorem agrees_of_write (h : w.write text value = .ok w') (htext : Path.SparesBase text) :
    Agrees (fun path => Path.parse? text ≠ some path) w' w := by
  obtain ⟨path, hparse, -, halter⟩ := write_eq_ok_iff.mp h
  refine ⟨events_of_write h, fun other hother => ?_⟩
  refine part_of_alterAt ?_ halter (htext path hparse) ?_
  · exact fun name r another hne => Record.only_assign_of_ne hne r value
  · rintro rfl
    exact hother hparse

def Covers (on : Path → Prop) (text : String) : Prop :=
  ∀ path, Path.parse? text = some path → on path

theorem Agrees.require_bind {α : Type} {f g : Path → Except Failure α}
    (hon : Covers on text) (hsame : ∀ path, on path → f path = g path) :
    (Path.require text).bind f = (Path.require text).bind g := by
  unfold Path.require
  cases hparse : Path.parse? text with
  | none => rfl
  | some path => exact hsame path (hon path hparse)

theorem Agrees.read (h : Agrees on u w) (hon : Covers on text) : u.read text = w.read text :=
  Agrees.require_bind hon fun path hpath => readAt_congr (h.parts path hpath) h.events

theorem Agrees.peek (h : Agrees on u w) (hon : Covers on text) : u.peek text = w.peek text :=
  Agrees.require_bind hon fun path hpath => peekAt_congr (h.parts path hpath)

/-- Worlds that agree on the path of a write take it both or refuse it both, and agree as
before afterwards. -/
theorem Agrees.write (h : Agrees on u w) (hon : Covers on text) (htext : Path.SparesBase text)
    (value : Value) :
    Option.Rel (Agrees on) (u.write text value).toOption (w.write text value).toOption := by
  unfold World.write Path.require
  cases hparse : Path.parse? text with
  | none => exact .none
  | some path =>
    have hsame := writeAt_congr (h.parts path (hon path hparse)) value
    simp only [Except.bind]
    cases hu : u.writeAt path value with
    | error failure =>
      rw [hu] at hsame
      cases hw : w.writeAt path value with
      | error => exact .none
      | ok => simp [hw, Except.map] at hsame
    | ok u' =>
      rw [hu] at hsame
      cases hw : w.writeAt path value with
      | error => simp [hw, Except.map] at hsame
      | ok w' =>
        rw [hw] at hsame
        have hwrite : ∀ {v v' : World}, v.writeAt path value = .ok v' →
            v.write text value = .ok v' :=
          fun hat => (require_bind_eq_ok_iff _ _ _).mpr ⟨path, hparse, hat⟩
        have hu' := agrees_of_write (hwrite hu) htext
        have hw' := agrees_of_write (hwrite hw) htext
        refine .some ⟨(hu'.events.trans h.events).trans hw'.events.symm, fun other hother => ?_⟩
        by_cases hpath : other = path
        · rw [hpath]
          exact Except.ok.inj hsame
        · have hapart : Path.parse? text ≠ some other := by
            rw [hparse]
            exact fun heq => hpath (Option.some.inj heq).symm
          rw [hu'.parts other hapart, h.parts other hother, hw'.parts other hapart]

/-- Of worlds that agree everywhere documents keep the same cells. -/
theorem Agrees.sameCells (h : Agrees (fun _ => True) u w) : u.stored.SameCells w.stored := by
  have hparts : ∀ path, u.part path = w.part path := fun path => h.parts path trivial
  refine ⟨?_, fun name => ?_, fun name => ?_⟩
  · intro name
    have hagent : ∀ w : World, w.stored.agents.get? name = (w.agents.get? name).map Agent.stored :=
      fun w => Record.get?_map _ _ _
    have hfields := fun field => agent_congr (hparts (.agentField name field))
    rw [hagent, hagent]
    generalize u.agents.get? name = a at hfields ⊢
    generalize w.agents.get? name = b at hfields ⊢
    cases hfields "" with
    | none => exact .none
    | @some a b hab =>
      refine .some ⟨congrArg Value.stored hab.id, fun field => ?_,
        congrArg Record.stored hab.others⟩
      cases hfields field with
      | some hfield => exact Record.get?_stored_congr hfield.field
  · exact Record.get?_stored_congr (Part.member.inj (hparts (.environmentField name))).1
  · exact Record.get?_stored_congr (Part.member.inj (hparts (.metric name))).1

end World

end Harbormaster
