import Harbormaster.Proofs.Value.Solid
import Harbormaster.World.Cell

/-!
Cells one by one. A write and an unset are seen as one operation, which alters
the record of one container under one name. What every other cell holds stays, and so
does what it answers, unless the name is that under which a record shows what it falls
back on. A world reflects another one when each of its cells holds what a document
keeps of the other's cell; writing to ordinary cells of both keeps them in step.
-/

namespace Harbormaster

namespace Path

def accepts : Path → Value → Bool
  | .agentField .., _ => true
  | .environmentField _, v => v.isScalar
  | .metric _, .number n => n.isFinite
  | _, _ => false

/-- The name of a cell in its container. -/
def name : Path → String
  | .agentField _ name | .environmentField name | .metric name | .event name _ => name

/-- Whether a cell is the only thing that answers to its name. -/
def isOrdinary (path : Path) : Bool := (Value.shared? path.name).isNone

theorem ne_baseName_of_isOrdinary {path : Path} (h : path.isOrdinary = true) :
    path.name ≠ Record.baseName := by
  intro heq
  rw [isOrdinary, heq] at h
  cases h

/-- Whether a text spells an ordinary cell, if it spells one. -/
def Ordinary (text : String) : Prop := ∀ path, parse? text = some path → path.isOrdinary = true

/-- Whether the cell that a text spells is not what a record falls back on. -/
def SparesBase (text : String) : Prop :=
  ∀ path, parse? text = some path → path.name ≠ Record.baseName

instance (text : String) : Decidable (Ordinary text) :=
  inferInstanceAs (Decidable (∀ path ∈ parse? text, path.isOrdinary = true))

instance (text : String) : Decidable (SparesBase text) :=
  inferInstanceAs (Decidable (∀ path ∈ parse? text, path.name ≠ Record.baseName))

theorem sparesBase_of_parse? {text : String} {path : Path} (hparse : parse? text = some path)
    (hname : path.name ≠ Record.baseName) : SparesBase text := by
  intro other hother
  rwa [Option.some.inj (hother.symm.trans hparse)]

theorem Ordinary.sparesBase {text : String} (h : Ordinary text) : SparesBase text :=
  fun path hparse => ne_baseName_of_isOrdinary (h path hparse)

end Path

namespace Record

variable {r s : Record Value} {name : String}

theorem base_congr (h : r.get? baseName = s.get? baseName) : r.base = s.base := by
  unfold base
  rw [h]

/-- What a record answers depends on two of its members. -/
theorem find?_congr (hname : r.get? name = s.get? name)
    (hbase : r.get? baseName = s.get? baseName) : r.find? name = s.find? name := by
  unfold find?
  rw [hname, base_congr hbase]

/-- A record answers to a name by what it holds, where nothing else answers to it. -/
theorem find?_of_own (hname : name ≠ baseName) (hbase : r.base.property? name = none) :
    r.find? name = r.get? name := by
  rw [find?_of_ne hname, hbase, Option.or_none]

theorem answer_of_own (hname : name ≠ baseName) (hbase : r.base.property? name = none) :
    r.answer name = r.member name :=
  congrArg (·.getD Value.missing) (find?_of_own hname hbase)

/-- Where a number is found nothing stands in the way of another one. -/
theorem answer_assign_of_number {n m : Number} (h : r.answer name = .number n) :
    (r.assign name (.number m)).answer name = .number m := by
  have hleads : r.leads name = false := by
    by_cases hname : name = baseName
    · subst hname
      unfold answer find? at h
      unfold leads
      cases hget : r.get? baseName with
      | none => simp [hget] at h
      | some own =>
        cases own with
        | fallback base =>
          cases base with
          | missing | absent | boolean | number | text | fallback => rfl
          | list | record | native => simp [hget, Value.given?] at h
        | missing | absent | boolean | number | text | list | record | native => rfl
    · exact leads_of_ne hname
  unfold assign answer find?
  simp only [hleads, Bool.false_eq_true, if_false, get?_set, if_true]
  split <;> rfl

theorem base_eq_root (h : ∀ v, r.get? baseName = some v → v.isFallback = false) :
    r.base = .native .root := by
  unfold base
  split
  · rename_i hbase
    cases h _ hbase
  · rfl

end Record

namespace World

/-- Alters the container of a cell, by an operation on records that is given the
name of the cell in it. -/
def alterAt (w : World) (path : Path) (f : String → Record Value → Record Value) :
    Except Failure World :=
  match path with
  | .agentField agent field =>
    match w.agents.get? agent with
    | none => .error (.unknownAgent agent)
    | some a => .ok { w with agents := w.agents.set agent { a with fields := f field a.fields } }
  | .environmentField field => .ok { w with environment := f field w.environment }
  | .metric name => .ok { w with metrics := f name w.metrics }
  | .event .. => .error (.unknownPath path.render (some .readOnly))

inductive Alters (w : World) (f : String → Record Value → Record Value) : Path → World → Prop where
  | agentField {agent : String} {a : Agent} (field : String) (ha : w.agents.get? agent = some a) :
      Alters w f (.agentField agent field)
        { w with agents := w.agents.set agent { a with fields := f field a.fields } }
  | environmentField (field : String) :
      Alters w f (.environmentField field) { w with environment := f field w.environment }
  | metric (name : String) : Alters w f (.metric name) { w with metrics := f name w.metrics }

theorem alters_of_alterAt {w w' : World} {path : Path}
    {f : String → Record Value → Record Value} (h : w.alterAt path f = .ok w') :
    w.Alters f path w' := by
  cases path with
  | event => cases h
  | environmentField field =>
    cases h
    exact .environmentField field
  | metric name =>
    cases h
    exact .metric name
  | agentField agent field =>
    cases ha : w.agents.get? agent with
    | none =>
      simp only [alterAt, ha] at h
      cases h
    | some a =>
      simp only [alterAt, ha] at h
      cases h
      exact .agentField field ha

theorem unsetAt_eq_ok_iff (w w' : World) (path : Path) :
    w.unsetAt path = .ok w' ↔ w.alterAt path (fun name r => r.drop name) = .ok w' := by
  cases path with
  | agentField agent field =>
    cases hagent : w.agents.get? agent with
    | none | some => simp [unsetAt, alterAt, hagent]
  | environmentField | metric | event => simp [unsetAt, alterAt]

theorem writeAt_eq_ok_iff (w w' : World) (path : Path) (value : Value) :
    w.writeAt path value = .ok w' ↔
      path.accepts value = true ∧ w.alterAt path (fun name r => r.assign name value) = .ok w' := by
  cases path with
  | agentField agent field =>
    cases hagent : w.agents.get? agent with
    | none | some => simp [writeAt, alterAt, Path.accepts, hagent]
  | environmentField field =>
    by_cases hscalar : value.isScalar
    · simp [writeAt, alterAt, Path.accepts, hscalar]
    · simp [writeAt, Path.accepts, hscalar]
  | metric name =>
    cases value with
    | number n =>
      by_cases hfinite : n.isFinite
      · simp [writeAt, alterAt, Path.accepts, hfinite]
      · simp [writeAt, Path.accepts, hfinite]
    | missing | absent | boolean | text | list | record | native | fallback =>
      simp [writeAt, Path.accepts]
  | event eventType key => simp [writeAt, Path.accepts]

def container? (w : World) : Path → Option (Record Value)
  | .agentField agent _ => (w.agents.get? agent).map Agent.fields
  | .environmentField _ => some w.environment
  | .metric _ => some w.metrics
  | .event .. => none

def base? (w : World) (path : Path) : Option Value := (w.container? path).map Record.base

/-- Whether nothing but the cell itself answers to its name. -/
def OwnsAt (w : World) (path : Path) : Prop :=
  path.name ≠ Record.baseName ∧ ∀ base, w.base? path = some base → base.property? path.name = none

instance (w : World) (path : Path) : Decidable (w.OwnsAt path) :=
  decidable_of_iff (path.name ≠ Record.baseName ∧
      ∀ base ∈ w.base? path, (base.property? path.name).isNone = true) (by
    simp only [Option.isNone_iff_eq_none]
    exact Iff.rfl)

def held? (w : World) (path : Path) : Option Value := (w.container? path).bind (·.get? path.name)

/-- A cell shows what its record answers to its name. -/
theorem peekAt_eq_ok_iff {w : World} {path : Path} {value : Value} :
    w.peekAt path = .ok value ↔
      ∃ r, w.container? path = some r ∧ r.answer path.name = value := by
  cases path with
  | event => simp [peekAt, container?]
  | environmentField | metric => simp [peekAt, container?, Path.name]
  | agentField agent field =>
    cases ha : w.agents.get? agent with
    | none | some => simp [peekAt, container?, Path.name, ha]

section Altering

variable {w w' : World} {path other : Path} {f : String → Record Value → Record Value}

/-- Altering a cell is altering its record. -/
theorem container?_of_alterAt (h : w.alterAt path f = .ok w') :
    ∃ r, w.container? path = some r ∧ w'.container? path = some (f path.name r) := by
  cases alters_of_alterAt h with
  | environmentField | metric => exact ⟨_, rfl, rfl⟩
  | @agentField agent a field ha =>
    exact ⟨a.fields, by simp [container?, ha], by simp [container?, Path.name]⟩

/-- Altering one cell leaves the record of another one as it is, but for a single name. -/
theorem container?_of_alterAt_ne (h : w.alterAt path f = .ok w') (other : Path) :
    w'.container? other = w.container? other ∨
      ∃ r, w.container? other = some r ∧ w'.container? other = some (f path.name r) ∧
        (other.name = path.name → other = path) := by
  cases alters_of_alterAt h with
  | environmentField field =>
    cases other with
    | environmentField another => exact .inr ⟨_, rfl, rfl, fun heq => congrArg _ heq⟩
    | agentField | metric | event => exact .inl rfl
  | metric name =>
    cases other with
    | metric another => exact .inr ⟨_, rfl, rfl, fun heq => congrArg _ heq⟩
    | agentField | environmentField | event => exact .inl rfl
  | @agentField agent a field ha =>
    cases other with
    | agentField anAgent another =>
      by_cases hagent : anAgent = agent
      · subst hagent
        exact .inr ⟨a.fields, by simp [container?, ha], by simp [container?, Path.name],
          fun heq => congrArg _ heq⟩
      · exact .inl (by simp [container?, hagent])
    | environmentField | metric | event => exact .inl rfl

/-- Altering one cell leaves alone what the others hold. -/
theorem held?_of_alterAt
    (hf : ∀ name r another, another ≠ name → (f name r).get? another = r.get? another)
    (h : w.alterAt path f = .ok w') (hother : other ≠ path) : w'.held? other = w.held? other := by
  unfold held?
  rcases container?_of_alterAt_ne h other with hsame | ⟨r, hr, hr', hname⟩
  · rw [hsame]
  · rw [hr, hr']
    exact hf _ _ _ fun heq => hother (hname heq)

/-- What records fall back on is a member of theirs. -/
theorem base?_of_alterAt
    (hf : ∀ name r another, another ≠ name → (f name r).get? another = r.get? another)
    (h : w.alterAt path f = .ok w') (hname : path.name ≠ Record.baseName) :
    w'.base? other = w.base? other := by
  unfold base?
  rcases container?_of_alterAt_ne h other with hsame | ⟨r, hr, hr', -⟩
  · rw [hsame]
  · rw [hr, hr']
    exact congrArg some (Record.base_congr (hf _ r _ hname.symm))

/-- The others also answer as before, unless what a record falls back on is altered. -/
theorem peekAt_of_alterAt
    (hf : ∀ name r another, another ≠ name → (f name r).get? another = r.get? another)
    (h : w.alterAt path f = .ok w') (hname : path.name ≠ Record.baseName)
    (hother : other ≠ path) : w'.peekAt other = w.peekAt other := by
  have hanswer : ∀ {r : Record Value} {another : String}, another ≠ path.name →
      (f path.name r).answer another = r.answer another := fun hne =>
    congrArg (·.getD Value.missing) (Record.find?_congr (hf _ _ _ hne) (hf _ _ _ hname.symm))
  cases alters_of_alterAt h with
  | environmentField field =>
    cases other with
    | environmentField another =>
      exact congrArg Except.ok (hanswer fun heq => hother (congrArg _ heq))
    | agentField | metric | event => rfl
  | metric name =>
    cases other with
    | metric another => exact congrArg Except.ok (hanswer fun heq => hother (congrArg _ heq))
    | agentField | environmentField | event => rfl
  | @agentField agent a field ha =>
    cases other with
    | agentField anAgent another =>
      by_cases hagent : anAgent = agent
      · subst hagent
        have hne : another ≠ field := by
          rintro rfl
          exact hother rfl
        have hsame : (f field a.fields).answer another = a.fields.answer another := hanswer hne
        simp [peekAt, ha, hsame]
      · simp [peekAt, hagent]
    | environmentField | metric | event => rfl

end Altering

end World

def Record.Reflects (r s : Record Value) : Prop :=
  ∀ name, r.get? name = (s.get? name).bind Value.kept?

structure Agent.Reflects (a b : Agent) : Prop where
  id : a.id = b.id.stored
  fields : a.fields.Reflects b.fields
  others : a.others = b.others.stored

/-- One world holds what a document keeps of the cells of another. -/
structure World.Reflects (u w : World) : Prop where
  agents : ∀ name, Option.Rel Agent.Reflects (u.agents.get? name) (w.agents.get? name)
  environment : u.environment.Reflects w.environment
  metrics : u.metrics.Reflects w.metrics

structure Record.Sound (r : Record Value) : Prop where
  distinct : r.Distinct
  cells : ∀ name v, r.get? name = some v → v.isCell = true

structure World.Sound (w : World) : Prop where
  fields : ∀ name a, w.agents.get? name = some a → a.fields.Sound
  environment : w.environment.Sound
  metrics : w.metrics.Sound

namespace Record

variable {r s : Record Value}

theorem Solid.sound (h : r.Solid) : r.Sound :=
  ⟨h.distinct, fun _ _ hv => Value.isCell_of_isSolid (h.isSolid hv)⟩

theorem Solid.reflects (h : r.Solid) : r.Reflects r := by
  intro name
  cases hget : r.get? name with
  | none => rfl
  | some v => exact (Value.kept?_of_isSolid (h.isSolid hget)).symm

theorem Sound.set (h : r.Sound) {v : Value} (hv : v.isCell = true) (name : String) :
    (r.set name v).Sound := by
  refine ⟨h.distinct.set name v, ?_⟩
  intro other value hvalue
  rw [get?_set] at hvalue
  split at hvalue
  · cases hvalue
    exact hv
  · exact h.cells other value hvalue

theorem Sound.erase (h : r.Sound) (name : String) : (r.erase name).Sound := by
  refine ⟨h.distinct.erase name, ?_⟩
  intro other value hvalue
  rw [get?_erase] at hvalue
  split at hvalue
  · cases hvalue
  · exact h.cells other value hvalue

theorem Reflects.set (h : r.Reflects s) {v kept : Value} (hv : v.kept? = some kept)
    (name : String) : (r.set name kept).Reflects (s.set name v) := by
  intro other
  rw [get?_set, get?_set]
  split
  · exact hv.symm
  · exact h other

theorem Reflects.erase (h : r.Reflects s) (name : String) :
    (r.erase name).Reflects (s.erase name) := by
  intro other
  rw [get?_erase, get?_erase]
  split
  · rfl
  · exact h other

/-- A member that is missing is kept as none. -/
theorem Reflects.erase_set_missing (h : r.Reflects s) (name : String) :
    (r.erase name).Reflects (s.set name .missing) := by
  intro other
  rw [get?_erase, get?_set]
  split
  · rfl
  · exact h other

theorem Sound.base (h : r.Sound) : r.base = .native .root := by
  refine base_eq_root fun v hv => ?_
  have hcell := h.cells _ v hv
  cases v with
  | fallback => cases hcell
  | missing | absent | boolean | number | text | list | record | native => rfl

theorem Reflects.base (h : r.Reflects s) : r.base = .native .root := by
  refine base_eq_root fun v hv => ?_
  rw [h] at hv
  obtain ⟨held, -, hkept⟩ := Option.bind_eq_some_iff.mp hv
  exact Value.isFallback_of_kept? hkept

/-- To an ordinary name a record answers what a document keeps of the other's answer. -/
theorem Reflects.marked_answer (h : r.Reflects s) (hs : s.Sound) {name : String}
    (hname : name ≠ baseName) (hshared : Value.shared? name = none) :
    (r.answer name).marked = (s.answer name).marked.stored := by
  have hroot : (Value.native .root).property? name = none := hshared
  rw [answer_of_own hname (h.base ▸ hroot), answer_of_own hname (hs.base ▸ hroot)]
  unfold member
  rw [h name]
  cases hfound : s.get? name with
  | none => rfl
  | some v =>
    rw [Option.bind_some, Value.getD_kept?]
    exact Value.marked_stored_of_isCell (hs.cells name v hfound)

end Record

namespace World

variable {u w w' : World} {path : Path} {f g : String → Record Value → Record Value}

/-- An agent of the one world has its counterpart in the other. -/
theorem Reflects.agent (h : u.Reflects w) {name : String} {b : Agent}
    (hb : w.agents.get? name = some b) : ∃ a, u.agents.get? name = some a ∧ a.Reflects b := by
  have hagent := h.agents name
  rw [hb] at hagent
  generalize u.agents.get? name = found at hagent
  cases hagent with
  | some hab => exact ⟨_, rfl, hab⟩

/-- Events are no cells. -/
theorem Reflects.congr (h : u.Reflects w) (hagents : w'.agents = w.agents)
    (henvironment : w'.environment = w.environment) (hmetrics : w'.metrics = w.metrics) :
    u.Reflects w' := by
  constructor
  · rw [hagents]
    exact h.agents
  · rw [henvironment]
    exact h.environment
  · rw [hmetrics]
    exact h.metrics

theorem Sound.congr (h : w.Sound) (hagents : w'.agents = w.agents)
    (henvironment : w'.environment = w.environment) (hmetrics : w'.metrics = w.metrics) :
    w'.Sound := by
  constructor
  · rw [hagents]
    exact h.fields
  · rw [henvironment]
    exact h.environment
  · rw [hmetrics]
    exact h.metrics

theorem Sound.container (h : w.Sound) {r : Record Value} (hr : w.container? path = some r) :
    r.Sound := by
  cases path with
  | event => cases hr
  | environmentField =>
    cases hr
    exact h.environment
  | metric =>
    cases hr
    exact h.metrics
  | agentField agent field =>
    obtain ⟨a, ha, rfl⟩ := Option.map_eq_some_iff.mp hr
    exact h.fields agent a ha

/-- Altering a cell on both sides keeps the worlds in step, if it does so for the
records that the cells are in. -/
theorem Reflects.alterAt (h : u.Reflects w) (hw : w.Sound)
    (hstep : ∀ r s, r.Reflects s → s.Sound →
      (g path.name r).Reflects (f path.name s) ∧ (f path.name s).Sound)
    (hok : w.alterAt path f = .ok w') :
    ∃ u', u.alterAt path g = .ok u' ∧ u'.Reflects w' ∧ w'.Sound := by
  cases alters_of_alterAt hok with
  | environmentField field =>
    obtain ⟨hreflects, hsound⟩ := hstep _ _ h.environment hw.environment
    exact ⟨_, rfl, ⟨h.agents, hreflects, h.metrics⟩, ⟨hw.fields, hsound, hw.metrics⟩⟩
  | metric name =>
    obtain ⟨hreflects, hsound⟩ := hstep _ _ h.metrics hw.metrics
    exact ⟨_, rfl, ⟨h.agents, h.environment, hreflects⟩, ⟨hw.fields, hw.environment, hsound⟩⟩
  | @agentField agent b field hb =>
    obtain ⟨a, ha, hab⟩ := h.agent hb
    obtain ⟨hreflects, hsound⟩ := hstep _ _ hab.fields (hw.fields agent b hb)
    simp only [World.alterAt, ha]
    refine ⟨_, rfl, ⟨?_, h.environment, h.metrics⟩, ⟨?_, hw.environment, hw.metrics⟩⟩
    · intro name
      rw [Record.get?_set, Record.get?_set]
      split
      · exact .some ⟨hab.id, hreflects, hab.others⟩
      · exact h.agents name
    · intro name c hc
      rw [Record.get?_set] at hc
      split at hc
      · cases hc
        exact hsound
      · exact hw.fields name c hc

/-- An ordinary cell shows what a document keeps of the cell that it reflects. -/
theorem Reflects.peekAt (h : u.Reflects w) (hw : w.Sound) (hpath : path.isOrdinary = true)
    {v : Value} (hv : w.peekAt path = .ok v) :
    ∃ v', u.peekAt path = .ok v' ∧ v'.marked = v.marked.stored := by
  have hname := Path.ne_baseName_of_isOrdinary hpath
  have hshared := Option.isNone_iff_eq_none.mp hpath
  cases path with
  | event => cases hv
  | environmentField field =>
    cases hv
    exact ⟨_, rfl, h.environment.marked_answer hw.environment hname hshared⟩
  | metric name =>
    cases hv
    exact ⟨_, rfl, h.metrics.marked_answer hw.metrics hname hshared⟩
  | agentField agent field =>
    cases hb : w.agents.get? agent with
    | none =>
      simp only [World.peekAt, hb] at hv
      cases hv
    | some b =>
      simp only [World.peekAt, hb] at hv
      cases hv
      obtain ⟨a, ha, hab⟩ := h.agent hb
      simp only [World.peekAt, ha]
      exact ⟨_, rfl, hab.fields.marked_answer (hw.fields agent b hb) hname hshared⟩

/-- The operations on texts are those on the paths that they spell. -/
theorem require_bind_eq_ok_iff {α : Type} (text : String) (f : Path → Except Failure α) (a : α) :
    (Path.require text).bind f = .ok a ↔
      ∃ path, Path.parse? text = some path ∧ f path = .ok a := by
  unfold Path.require
  cases Path.parse? text with
  | none => simp [Except.bind]
  | some path => simp [Except.bind]

theorem write_eq_ok_iff {w w' : World} {text : String} {value : Value} :
    w.write text value = .ok w' ↔ ∃ path, Path.parse? text = some path ∧
      path.accepts value = true ∧ w.alterAt path (fun name r => r.assign name value) = .ok w' := by
  simp only [write, require_bind_eq_ok_iff, writeAt_eq_ok_iff]

theorem unset_eq_ok_iff {w w' : World} {text : String} :
    w.unset text = .ok w' ↔ ∃ path, Path.parse? text = some path ∧
      w.alterAt path (fun name r => r.drop name) = .ok w' := by
  simp only [unset, require_bind_eq_ok_iff, unsetAt_eq_ok_iff]

theorem accepts_stored {value : Value} (haccepts : path.accepts value = true)
    (hvalue : value.isCell = true) : path.accepts value.stored = true := by
  cases path with
  | agentField => rfl
  | event => cases haccepts
  | environmentField field =>
    cases value with
    | boolean | text => rfl
    | number n =>
      have hn : n.isFinite = true := hvalue
      simp [Value.stored, hn, Path.accepts, Value.isScalar]
    | missing | absent | list | record | native | fallback => cases haccepts
  | metric name =>
    cases value with
    | number n =>
      have hn : n.isFinite = true := hvalue
      simp [Value.stored, hn, Path.accepts]
    | missing | absent | boolean | text | list | record | native | fallback => cases haccepts

/-- Gives a cell the value that a document keeps of it, where the marker stands for
a cell that is not there. -/
def settle (w : World) (text : String) : Value → Except Failure World
  | .absent => w.unset text
  | value => w.write text value

theorem settle_of_ne_absent (w : World) (text : String) {value : Value}
    (h : value ≠ .absent) : w.settle text value = w.write text value := by
  cases value with
  | absent => exact absurd rfl h
  | missing | boolean | number | text | list | record | native | fallback => rfl

theorem Reflects.unset (h : u.Reflects w) (hw : w.Sound) {text : String}
    (hpath : Path.SparesBase text) (hok : w.unset text = .ok w') :
    ∃ u', u.unset text = .ok u' ∧ u'.Reflects w' ∧ w'.Sound := by
  obtain ⟨path, hparse, hat⟩ := unset_eq_ok_iff.mp hok
  have hne := hpath path hparse
  obtain ⟨u', hu, hreflects, hsound⟩ := h.alterAt (g := fun name r => r.drop name) hw
    (fun r s hrs hs => by
      rw [Record.drop_of_ne hne, Record.drop_of_ne hne]
      exact ⟨hrs.erase _, hs.erase _⟩) hat
  exact ⟨u', unset_eq_ok_iff.mpr ⟨path, hparse, hu⟩, hreflects, hsound⟩

/-- Writing what a document keeps of a value keeps worlds in step; where it keeps
nothing the cell is unset. -/
theorem Reflects.write (h : u.Reflects w) (hw : w.Sound) {text : String} {value : Value}
    (hpath : Path.SparesBase text) (hvalue : value.isCell = true)
    (hok : w.write text value = .ok w') :
    ∃ u', u.settle text value.marked.stored = .ok u' ∧ u'.Reflects w' ∧ w'.Sound := by
  obtain ⟨path, hparse, haccepts, halter⟩ := write_eq_ok_iff.mp hok
  have hne := hpath path hparse
  -- a missing value keeps its place in the record, of which a document keeps nothing
  by_cases hthere : value = .missing
  · subst hthere
    obtain ⟨u', hu, hreflects, hsound⟩ := h.alterAt (g := fun name r => r.drop name) hw
      (fun r s hrs hs => by
        rw [Record.drop_of_ne hne, Record.assign_of_ne hne]
        exact ⟨hrs.erase_set_missing _, hs.set rfl _⟩) halter
    exact ⟨u', unset_eq_ok_iff.mpr ⟨path, hparse, hu⟩, hreflects, hsound⟩
  · obtain ⟨hkept, hsomething, hmarked⟩ := Value.stored_of_isCell hvalue hthere
    obtain ⟨u', hu, hreflects, hsound⟩ := h.alterAt
      (g := fun name r => r.assign name value.stored) hw
      (fun r s hrs hs => by
        rw [Record.assign_of_ne hne, Record.assign_of_ne hne]
        exact ⟨hrs.set hkept _, hs.set hvalue _⟩) halter
    rw [hmarked, settle_of_ne_absent u text hsomething]
    exact ⟨u', write_eq_ok_iff.mpr ⟨path, hparse, accepts_stored haccepts hvalue, hu⟩, hreflects,
      hsound⟩

/-- Settling one cell leaves the others alone. -/
theorem peekAt_of_settle {text : String} {value : Value} (hok : w.settle text value = .ok w')
    (hpath : Path.SparesBase text) (hother : Path.parse? text ≠ some path) :
    w'.peekAt path = w.peekAt path := by
  by_cases hthere : value = .absent
  · subst hthere
    obtain ⟨altered, hparse, hat⟩ := unset_eq_ok_iff.mp hok
    refine peekAt_of_alterAt (fun _ _ _ => Record.get?_drop_of_ne) hat
      (hpath altered hparse) ?_
    rintro rfl
    exact hother hparse
  · rw [settle_of_ne_absent w text hthere] at hok
    obtain ⟨altered, hparse, -, halter⟩ := write_eq_ok_iff.mp hok
    refine peekAt_of_alterAt (fun _ _ _ => Record.get?_assign_of_ne) halter
      (hpath altered hparse) ?_
    rintro rfl
    exact hother hparse

end World

structure Agent.Solid (a : Agent) : Prop where
  id : a.id.isSolid = true
  fields : a.fields.Solid
  others : a.others.Solid

/-- A world whose cells hold something everywhere and no number that is not
finite. Of its events nothing is asked. -/
structure World.Solid (w : World) : Prop where
  agents : ∀ name a, w.agents.get? name = some a → a.Solid
  environment : w.environment.Solid
  metrics : w.metrics.Solid

/-- Two agents that differ in the order of their fields at most. -/
structure Agent.Same (a b : Agent) : Prop where
  id : a.id = b.id
  fields : ∀ name, a.fields.get? name = b.fields.get? name
  others : a.others = b.others

structure World.SameCells (u v : World) : Prop where
  agents : ∀ name, Option.Rel Agent.Same (u.agents.get? name) (v.agents.get? name)
  environment : ∀ name, u.environment.get? name = v.environment.get? name
  metrics : ∀ name, u.metrics.get? name = v.metrics.get? name

namespace World

variable {u v w : World}

theorem Solid.sound (h : w.Solid) : w.Sound :=
  ⟨fun name a ha => (h.agents name a ha).fields.sound, h.environment.sound, h.metrics.sound⟩

/-- A solid world is what a document keeps of it. -/
theorem Solid.reflects (h : w.Solid) : w.Reflects w := by
  refine ⟨?_, h.environment.reflects, h.metrics.reflects⟩
  intro name
  cases hname : w.agents.get? name with
  | none => exact .none
  | some a =>
    have ha := h.agents name a hname
    exact .some ⟨(Value.stored_of_isSolid ha.id).symm, ha.fields.reflects, ha.others.stored.symm⟩

theorem Sound.reflects_stored (h : w.Sound) : w.stored.Reflects w := by
  refine ⟨?_, Record.get?_stored h.environment.distinct, Record.get?_stored h.metrics.distinct⟩
  intro name
  have hagents : w.stored.agents.get? name = (w.agents.get? name).map Agent.stored :=
    Record.get?_map _ _ _
  rw [hagents]
  cases hname : w.agents.get? name with
  | none => exact .none
  | some a => exact .some ⟨rfl, Record.get?_stored (h.fields name a hname).distinct, rfl⟩

/-- What reflects the same world is the same. -/
theorem Reflects.sameCells (hu : u.Reflects w) (hv : v.Reflects w) : u.SameCells v := by
  constructor
  · intro name
    have hun := hu.agents name
    have hvn := hv.agents name
    generalize u.agents.get? name = a at hun ⊢
    generalize v.agents.get? name = b at hvn ⊢
    generalize w.agents.get? name = c at hun hvn
    cases hun with
    | none =>
      cases hvn with
      | none => exact .none
    | some hac =>
      cases hvn with
      | some hbc =>
        refine .some ⟨hac.id.trans hbc.id.symm, ?_, hac.others.trans hbc.others.symm⟩
        intro field
        exact (hac.fields field).trans (hbc.fields field).symm
  · intro name
    exact (hu.environment name).trans (hv.environment name).symm
  · intro name
    exact (hu.metrics name).trans (hv.metrics name).symm

theorem SameCells.peekAt (h : u.SameCells v) (path : Path) : u.peekAt path = v.peekAt path := by
  cases path with
  | event => rfl
  | environmentField field =>
    simp [World.peekAt, Record.answer, Record.find?_congr (h.environment _) (h.environment _)]
  | metric name =>
    simp [World.peekAt, Record.answer, Record.find?_congr (h.metrics _) (h.metrics _)]
  | agentField agent field =>
    have hagent := h.agents agent
    simp only [World.peekAt]
    generalize u.agents.get? agent = a at hagent ⊢
    generalize v.agents.get? agent = b at hagent ⊢
    cases hagent with
    | none => rfl
    | some hab => simp [Record.answer, Record.find?_congr (hab.fields _) (hab.fields _)]

end World

end Harbormaster
