import Harbormaster.Conflict.Ledger
import Harbormaster.Proofs.Path.Rendering
import Harbormaster.Proofs.World.Cells

/-!
Cells by the texts of their paths. A cell that has been written shows what was
written, an unset one shows nothing where nothing else answers to its name, and either
way the cells of all other texts stay as they are, since no two texts name one cell.
Storing a world is seen cell by cell as well, where names are distinct.
-/

namespace Harbormaster

namespace World

variable {u w w' : World} {path : Path} {text other : String} {value : Value}
  {f : String → Record Value → Record Value}

/-- Whether nothing but the cell that a text spells answers to its name. -/
def Owns (w : World) (text : String) : Prop :=
  ∀ path, Path.parse? text = some path → w.OwnsAt path

instance (w : World) (text : String) : Decidable (w.Owns text) :=
  inferInstanceAs (Decidable (∀ path ∈ Path.parse? text, w.OwnsAt path))

theorem Owns.sparesBase (h : w.Owns text) : Path.SparesBase text :=
  fun path hparse => (h path hparse).1

/-- What the cell that a text spells holds itself. -/
def own? (w : World) (text : String) : Option Value := (Path.parse? text).bind w.held?

/-- An altered cell shows what its record then answers to its name. -/
theorem peekAt_of_alterAt_self
    (hf : ∀ r, w.container? path = some r → (f path.name r).answer path.name = value)
    (h : w.alterAt path f = .ok w') : w'.peekAt path = .ok value := by
  obtain ⟨r, hr, hr'⟩ := container?_of_alterAt h
  exact peekAt_eq_ok_iff.mpr ⟨_, hr', hf r hr⟩

theorem peek_of_write (h : w.write text value = .ok w') (htext : Path.SparesBase text) :
    w'.peek text = .ok value := by
  obtain ⟨path, hparse, -, halter⟩ := write_eq_ok_iff.mp h
  have hname := htext path hparse
  refine (require_bind_eq_ok_iff _ _ _).mpr ⟨path, hparse, peekAt_of_alterAt_self ?_ halter⟩
  intro r _
  simp [Record.assign_of_ne hname, Record.answer, Record.find?_of_ne hname]

theorem peek_of_unset (h : w.unset text = .ok w') (htext : w.Owns text) :
    w'.peek text = .ok .missing := by
  obtain ⟨path, hparse, hat⟩ := unset_eq_ok_iff.mp h
  obtain ⟨hname, howns⟩ := htext path hparse
  refine (require_bind_eq_ok_iff _ _ _).mpr ⟨path, hparse, peekAt_of_alterAt_self ?_ hat⟩
  intro r hr
  have hrest : (r.erase path.name).base = r.base := by
    apply Record.base_congr
    rw [Record.get?_erase, if_neg hname.symm]
  have hnone := howns r.base (by rw [base?, hr]; rfl)
  rw [Record.drop_of_ne hname, Record.answer_of_own hname (hrest ▸ hnone)]
  simp [Record.member]

/-- A number that is written over another one is found there in any case. -/
theorem peek_of_write_number {n m : Number} (hpeek : w.peek text = .ok (.number n))
    (h : w.write text (.number m) = .ok w') : w'.peek text = .ok (.number m) := by
  obtain ⟨path, hparse, -, halter⟩ := write_eq_ok_iff.mp h
  obtain ⟨path', hparse', hat⟩ := (require_bind_eq_ok_iff _ _ _).mp hpeek
  obtain rfl : path' = path := Option.some.inj (hparse'.symm.trans hparse)
  obtain ⟨r, hr, hanswer⟩ := peekAt_eq_ok_iff.mp hat
  refine (require_bind_eq_ok_iff _ _ _).mpr ⟨path', hparse, peekAt_of_alterAt_self ?_ halter⟩
  intro r' hr'
  rw [Option.some.inj (hr'.symm.trans hr)]
  exact Record.answer_assign_of_number hanswer

/-- A cell that takes a value can be seen. -/
theorem peek_succeeds_of_write (h : w.write text value = .ok w') :
    ∃ base, w.peek text = .ok base := by
  obtain ⟨path, hparse, -, halter⟩ := write_eq_ok_iff.mp h
  obtain ⟨r, hr, -⟩ := container?_of_alterAt halter
  exact ⟨_, (require_bind_eq_ok_iff _ _ _).mpr ⟨path, hparse, peekAt_eq_ok_iff.mpr ⟨r, hr, rfl⟩⟩⟩

/-- A cell that can be seen takes what its path accepts. -/
theorem write_succeeds (hparse : Path.parse? text = some path)
    (haccepts : path.accepts value = true)
    {now : Value} (hpeek : w.peek text = .ok now) : ∃ w', w.write text value = .ok w' := by
  obtain ⟨path', hparse', hat⟩ := (require_bind_eq_ok_iff _ _ _).mp hpeek
  obtain rfl : path' = path := Option.some.inj (hparse'.symm.trans hparse)
  have hwrite : ∃ w', w.writeAt path' value = .ok w' := by
    cases path' with
    | event => cases hat
    | environmentField | metric => exact ⟨_, (writeAt_eq_ok_iff _ _ _ _).mpr ⟨haccepts, rfl⟩⟩
    | agentField agent field =>
      cases ha : w.agents.get? agent with
      | none =>
        simp only [peekAt, ha] at hat
        cases hat
      | some a =>
        simp only [writeAt, ha]
        exact ⟨_, rfl⟩
  obtain ⟨w', hw'⟩ := hwrite
  exact ⟨w', (require_bind_eq_ok_iff _ _ _).mpr ⟨path', hparse, hw'⟩⟩

/-- A cell that can be seen takes every finite number. -/
theorem write_number_succeeds {n : Number} (hpeek : w.peek text = .ok value)
    (hn : n.isFinite = true) : ∃ w', w.write text (.number n) = .ok w' := by
  obtain ⟨path, hparse, hat⟩ := (require_bind_eq_ok_iff _ _ _).mp hpeek
  refine write_succeeds hparse ?_ hpeek
  cases path with
  | event => cases hat
  | agentField | environmentField => rfl
  | metric => exact hn

/-- What a cell takes in one world it takes in every other one that has it. -/
theorem write_succeeds_of_write (hok : u.write text value = .ok w') {now : Value}
    (hpeek : w.peek text = .ok now) : ∃ w', w.write text value = .ok w' := by
  obtain ⟨path, hparse, haccepts, -⟩ := write_eq_ok_iff.mp hok
  exact write_succeeds hparse haccepts hpeek

/-- Altering the cell of one text leaves those of all other texts alone. -/
theorem peek_of_alterAt (hf : ∀ name r another, another ≠ name →
      (f name r).get? another = r.get? another)
    (hparse : Path.parse? text = some path) (h : w.alterAt path f = .ok w')
    (htext : Path.SparesBase text) (hother : other ≠ text) : w'.peek other = w.peek other := by
  unfold peek Path.require
  cases hpath : Path.parse? other with
  | none => rfl
  | some another =>
    refine peekAt_of_alterAt hf h (htext path hparse) ?_
    rintro rfl
    exact hother (Path.eq_of_parse? hpath hparse)

theorem peek_of_write_ne (h : w.write text value = .ok w') (htext : Path.SparesBase text)
    (hother : other ≠ text) : w'.peek other = w.peek other := by
  obtain ⟨path, hparse, -, halter⟩ := write_eq_ok_iff.mp h
  exact peek_of_alterAt (fun _ _ _ => Record.get?_assign_of_ne) hparse halter htext hother

theorem peek_of_unset_ne (h : w.unset text = .ok w') (htext : Path.SparesBase text)
    (hother : other ≠ text) : w'.peek other = w.peek other := by
  obtain ⟨path, hparse, hat⟩ := unset_eq_ok_iff.mp h
  exact peek_of_alterAt (fun _ _ _ => Record.get?_drop_of_ne) hparse hat htext hother

/-- What the others hold stays in any case. -/
theorem own?_of_alterAt (hf : ∀ name r another, another ≠ name →
      (f name r).get? another = r.get? another)
    (hparse : Path.parse? text = some path) (h : w.alterAt path f = .ok w')
    (hother : other ≠ text) : w'.own? other = w.own? other := by
  unfold own?
  cases hpath : Path.parse? other with
  | none => rfl
  | some another =>
    refine held?_of_alterAt hf h ?_
    rintro rfl
    exact hother (Path.eq_of_parse? hpath hparse)

/-- What records fall back on stays where it is spared. -/
theorem Owns.alterAt (h : w.Owns other) (hf : ∀ name r another, another ≠ name →
      (f name r).get? another = r.get? another)
    (hparse : Path.parse? text = some path) (hok : w.alterAt path f = .ok w')
    (htext : Path.SparesBase text) : w'.Owns other := by
  intro another hanother
  obtain ⟨hname, howns⟩ := h another hanother
  refine ⟨hname, ?_⟩
  rw [base?_of_alterAt hf hok (htext path hparse)]
  exact howns

theorem Owns.write (h : w.Owns other) (hok : w.write text value = .ok w')
    (htext : Path.SparesBase text) : w'.Owns other := by
  obtain ⟨path, hparse, -, halter⟩ := write_eq_ok_iff.mp hok
  exact h.alterAt (fun _ _ _ => Record.get?_assign_of_ne) hparse halter htext

theorem Owns.unset (h : w.Owns other) (hok : w.unset text = .ok w')
    (htext : Path.SparesBase text) : w'.Owns other := by
  obtain ⟨path, hparse, hat⟩ := unset_eq_ok_iff.mp hok
  exact h.alterAt (fun _ _ _ => Record.get?_drop_of_ne) hparse hat htext

end World

namespace Ledger

variable {w w' : World} {text other : String} {value : Value}

/-- The outcome of a conflict is written, or else the cell is unset. -/
theorem write_or_unset_of_apply (h : apply w text value = .ok w') :
    w.write text value = .ok w' ∨ (value = .missing ∧ w.unset text = .ok w') := by
  cases value with
  | missing => exact .inr ⟨rfl, h⟩
  | absent | boolean | number | text | list | record | native | fallback => exact .inl h

theorem apply_of_hasForm (hvalue : value.hasForm = true) :
    apply w text value = w.write text value := by
  cases value with
  | missing => cases hvalue
  | absent | boolean | number | text | list | record | native | fallback => rfl

theorem peek_of_apply (h : apply w text value = .ok w') (htext : w.Owns text) :
    w'.peek text = .ok value := by
  rcases write_or_unset_of_apply h with hwrite | ⟨rfl, hunset⟩
  · exact World.peek_of_write hwrite htext.sparesBase
  · exact World.peek_of_unset hunset htext

theorem peek_of_apply_ne (h : apply w text value = .ok w') (htext : Path.SparesBase text)
    (hother : other ≠ text) : w'.peek other = w.peek other := by
  rcases write_or_unset_of_apply h with hwrite | ⟨-, hunset⟩
  · exact World.peek_of_write_ne hwrite htext hother
  · exact World.peek_of_unset_ne hunset htext hother

theorem owns_of_apply (howns : w.Owns other) (h : apply w text value = .ok w')
    (htext : Path.SparesBase text) : w'.Owns other := by
  rcases write_or_unset_of_apply h with hwrite | ⟨-, hunset⟩
  · exact howns.write hwrite htext
  · exact howns.unset hunset htext

end Ledger

/-- No name occurs twice in a container, as in every world that a document spells. -/
structure World.Distinct (w : World) : Prop where
  fields : ∀ name a, w.agents.get? name = some a → a.fields.Distinct
  environment : w.environment.Distinct
  metrics : w.metrics.Distinct

namespace World

variable {u w w' : World} {path : Path} {text : String} {value : Value}
  {f : String → Record Value → Record Value}

theorem Solid.distinct (h : w.Solid) : w.Distinct :=
  ⟨fun name a ha => (h.agents name a ha).fields.distinct, h.environment.distinct,
    h.metrics.distinct⟩

/-- What altering a container preserves holds of all containers afterwards. -/
theorem containers_of_alterAt {P : Record Value → Prop} (hf : ∀ name r, P r → P (f name r))
    (hfields : ∀ name a, w.agents.get? name = some a → P a.fields) (henvironment : P w.environment)
    (hmetrics : P w.metrics) (hok : w.alterAt path f = .ok w') :
    (∀ name a, w'.agents.get? name = some a → P a.fields) ∧ P w'.environment ∧ P w'.metrics := by
  cases World.alters_of_alterAt hok with
  | environmentField => exact ⟨hfields, hf _ _ henvironment, hmetrics⟩
  | metric => exact ⟨hfields, henvironment, hf _ _ hmetrics⟩
  | @agentField agent a field ha =>
    refine ⟨?_, henvironment, hmetrics⟩
    intro name b hb
    rw [Record.get?_set] at hb
    split at hb
    · cases hb
      exact hf _ _ (hfields agent a ha)
    · exact hfields name b hb

/-- What storing a container preserves holds of all containers of a stored world. -/
theorem containers_of_stored {P Q : Record Value → Prop} (hstored : ∀ r, P r → Q r.stored)
    (hfields : ∀ name a, w.agents.get? name = some a → P a.fields) (henvironment : P w.environment)
    (hmetrics : P w.metrics) :
    (∀ name a, w.stored.agents.get? name = some a → Q a.fields) ∧ Q w.stored.environment ∧
      Q w.stored.metrics := by
  refine ⟨?_, hstored _ henvironment, hstored _ hmetrics⟩
  intro name a ha
  have hagents : w.stored.agents.get? name = (w.agents.get? name).map Agent.stored :=
    Record.get?_map _ _ _
  rw [hagents] at ha
  obtain ⟨b, hb, rfl⟩ := Option.map_eq_some_iff.mp ha
  exact hstored _ (hfields name b hb)

theorem Distinct.alterAt (h : w.Distinct) (hf : ∀ name r, r.Distinct → (f name r).Distinct)
    (hok : w.alterAt path f = .ok w') : w'.Distinct := by
  obtain ⟨hfields, henvironment, hmetrics⟩ :=
    containers_of_alterAt hf h.fields h.environment h.metrics hok
  exact ⟨hfields, henvironment, hmetrics⟩

theorem Distinct.write (h : w.Distinct) (hok : w.write text value = .ok w') : w'.Distinct := by
  obtain ⟨path, -, -, halter⟩ := write_eq_ok_iff.mp hok
  exact h.alterAt (fun name r hr => hr.assign name value) halter

theorem Distinct.unset (h : w.Distinct) (hok : w.unset text = .ok w') : w'.Distinct := by
  obtain ⟨path, -, hat⟩ := unset_eq_ok_iff.mp hok
  exact h.alterAt (fun name r hr => hr.drop name) hat

theorem Distinct.reflects_stored (h : w.Distinct) : w.stored.Reflects w := by
  refine ⟨?_, Record.get?_stored h.environment, Record.get?_stored h.metrics⟩
  intro name
  have hagents : w.stored.agents.get? name = (w.agents.get? name).map Agent.stored :=
    Record.get?_map _ _ _
  rw [hagents]
  cases hname : w.agents.get? name with
  | none => exact .none
  | some a => exact .some ⟨rfl, Record.get?_stored (h.fields name a hname), rfl⟩

theorem Sound.ownsAt (h : w.Sound) (hpath : path.isOrdinary = true) : w.OwnsAt path := by
  refine ⟨Path.ne_baseName_of_isOrdinary hpath, ?_⟩
  have hroot : (Value.native .root).property? path.name = none :=
    Option.isNone_iff_eq_none.mp hpath
  intro base hbase
  obtain ⟨r, hr, rfl⟩ := Option.map_eq_some_iff.mp hbase
  rwa [(h.container hr).base]

theorem Solid.owns (h : w.Solid) (htext : Path.Ordinary text) : w.Owns text :=
  fun path hparse => h.sound.ownsAt (htext path hparse)

/-- An ordinary cell shows what a document keeps of the cell that it reflects, if nothing
else answers to the name of that one. -/
theorem Reflects.peekAt_eq (h : u.Reflects w) (hpath : path.isOrdinary = true)
    (howns : w.OwnsAt path) : u.peekAt path = (w.peekAt path).map Value.stored := by
  have hroot : (Value.native .root).property? path.name = none :=
    Option.isNone_iff_eq_none.mp hpath
  obtain ⟨hname, hbase⟩ := howns
  have hanswer : ∀ {r s : Record Value}, r.Reflects s →
      s.base.property? path.name = none → r.answer path.name = (s.answer path.name).stored := by
    intro r s hrs hs
    rw [Record.answer_of_own hname (hrs.base ▸ hroot), Record.answer_of_own hname hs]
    unfold Record.member
    rw [hrs]
    cases s.get? path.name with
    | none => rfl
    | some v => exact v.getD_kept?
  cases path with
  | event => rfl
  | environmentField field => exact congrArg Except.ok (hanswer h.environment (hbase _ rfl))
  | metric name => exact congrArg Except.ok (hanswer h.metrics (hbase _ rfl))
  | agentField agent field =>
    cases hb : w.agents.get? agent with
    | none =>
      have hagent := h.agents agent
      rw [hb] at hagent
      generalize ha : u.agents.get? agent = found at hagent
      cases hagent
      simp only [World.peekAt, ha, hb]
      rfl
    | some b =>
      obtain ⟨a, ha, hab⟩ := h.agent hb
      simp only [World.peekAt, ha, hb]
      exact congrArg Except.ok
        (hanswer hab.fields (hbase _ (by simp [World.base?, World.container?, hb])))

theorem Reflects.peek_eq (h : u.Reflects w) (htext : Path.Ordinary text) (howns : w.Owns text)
    (hv : w.peek text = .ok value) : u.peek text = .ok value.stored := by
  obtain ⟨path, hparse, hat⟩ := (require_bind_eq_ok_iff _ _ _).mp hv
  refine (require_bind_eq_ok_iff _ _ _).mpr ⟨path, hparse, ?_⟩
  rw [h.peekAt_eq (htext path hparse) (howns path hparse), hat]
  rfl

/-- A document keeps the ordinary cells of a solid world as they are, and those that are
unset as well. -/
theorem Solid.stored_of_peek (h : w.Solid) (htext : Path.Ordinary text)
    (hv : w.peek text = .ok value) : value.stored = value := by
  obtain ⟨path, hparse, hat⟩ := (require_bind_eq_ok_iff _ _ _).mp hv
  obtain ⟨r, hr, rfl⟩ := peekAt_eq_ok_iff.mp hat
  have hname := Path.ne_baseName_of_isOrdinary (htext path hparse)
  have hroot : (Value.native .root).property? path.name = none :=
    Option.isNone_iff_eq_none.mp (htext path hparse)
  have hsolid : r.Solid := by
    cases path with
    | event => cases hr
    | environmentField =>
      cases hr
      exact h.environment
    | metric =>
      cases hr
      exact h.metrics
    | agentField agent field =>
      obtain ⟨a, ha, rfl⟩ := Option.map_eq_some_iff.mp hr
      exact (h.agents agent a ha).fields
  rw [Record.answer_of_own hname (hsolid.sound.base ▸ hroot), Record.member]
  cases hfound : r.get? path.name with
  | none => rfl
  | some v => exact Value.stored_of_isSolid (hsolid.isSolid hfound)

end World

theorem Ledger.distinct_of_apply {w w' : World} {text : String} {value : Value} (h : w.Distinct)
    (hok : Ledger.apply w text value = .ok w') : w'.Distinct := by
  rcases Ledger.write_or_unset_of_apply hok with hwrite | ⟨-, hunset⟩
  · exact h.write hwrite
  · exact h.unset hunset

end Harbormaster
