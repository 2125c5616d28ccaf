import Harbormaster.Proofs.World.Texts

/-!
Values that cells take. A cell that holds something of its own shows that, whatever is
written elsewhere, and what is written to a cell is what the cell shows then. What a record
falls back on is the exception: only lists and records take its place, unless a document has
made its name a member like all members. Whether that is so no write changes that is taken.
-/

namespace Harbormaster

namespace Record

variable {r s : Record Value} {name : String} {value : Value}

/-- What a record holds under a name is its answer, whatever else there is. -/
theorem find?_congr_of_isSome (h : r.get? name = s.get? name) (hsome : (s.get? name).isSome) :
    r.find? name = s.find? name := by
  obtain ⟨own, hown⟩ := Option.isSome_iff_exists.mp hsome
  unfold find?
  rw [h, hown]
  rfl

theorem leads_congr (h : r.get? name = s.get? name) : r.leads name = s.leads name := by
  unfold leads
  rw [h]

/-- What is taken is shown, and held. -/
theorem answer_assign (hform : value.hasForm = true)
    (hshown : r.leads name = true → value.isObject = true) :
    (r.assign name value).answer name = value ∧
      ((r.assign name value).get? name).isSome = true := by
  cases hleads : r.leads name with
  | false =>
    rw [assign, hleads, if_neg (by simp), answer, find?, get?_set, if_pos rfl]
    refine ⟨?_, rfl⟩
    cases value with
    | fallback => cases hform
    | missing | absent | boolean | number | text | list | record | native => split <;> rfl
  | true =>
    have hobject := hshown hleads
    have hname : name = baseName := by
      by_contra hne
      rw [leads_of_ne hne] at hleads
      cases hleads
    rw [assign, hleads, if_pos rfl, hobject, Bool.true_or, if_pos rfl, answer, find?, get?_set,
      if_pos hname, if_pos rfl]
    refine ⟨?_, rfl⟩
    cases value with
    | list | record | native => rfl
    | missing | absent | boolean | number | text | fallback => cases hobject

/-- What stands in place of the base of a record is shown only if it can be a base. -/
theorem isObject_of_answer_assign (h : (r.assign name value).answer name = value)
    (hleads : r.leads name = true) : value.isObject = true := by
  by_contra hobject
  have hname : name = baseName := by
    by_contra hne
    rw [leads_of_ne hne] at hleads
    cases hleads
  subst hname
  rw [assign, hleads, if_pos rfl, Bool.eq_false_iff.mpr hobject, Bool.false_or] at h
  cases habsent : value.isAbsent with
  | true =>
    rw [habsent, if_pos rfl, answer, find?, if_pos rfl, get?_set, if_pos rfl] at h
    cases value with
    | absent => cases h
    | missing | boolean | number | text | list | record | native | fallback => cases habsent
  | false =>
    rw [habsent, if_neg (by simp), answer, find?, if_pos rfl] at h
    unfold leads at hleads
    -- without a write the record shows what it falls back on, which can be a base
    cases hget : r.get? baseName with
    | none =>
      rw [hget] at h
      exact hobject (h ▸ rfl)
    | some own =>
      rw [hget] at h hleads
      cases own with
      | fallback base =>
        have hbase : base.isObject = true := by simpa using hleads
        cases base with
        | list | record | native => exact hobject (h ▸ rfl)
        | missing | absent | boolean | number | text | fallback => cases hbase
      | missing | absent | boolean | number | text | list | record | native => simp at hleads

/-- A write that is taken leaves a name what it was. -/
theorem leads_of_leads_assign (hform : value.hasForm = true)
    (h : (r.assign name value).leads name = true) : r.leads name = true := by
  by_contra hnot
  have hleads := Bool.eq_false_iff.mpr hnot
  rw [assign, hleads, if_neg (by simp), leads, get?_set, if_pos rfl] at h
  cases value with
  | fallback => cases hform
  | missing | absent | boolean | number | text | list | record | native =>
    simp at h

end Record

namespace World

variable {w w' : World} {path : Path} {text other : String} {value former : Value}
  {f : String → Record Value → Record Value}

/-- Whether the cell that a text spells is what a record falls back on. -/
def Leads (w : World) (text : String) : Prop :=
  ∃ path r, Path.parse? text = some path ∧ w.container? path = some r ∧
    r.leads path.name = true

/-- Whether a cell can be written a value and shows it then. -/
structure Takes (w : World) (text : String) (value : Value) : Prop where
  form : value.hasForm = true
  written : ∃ w', w.write text value = .ok w'
  shown : w.Leads text → value.isObject = true

theorem takes_of_peek (hform : value.hasForm = true) (h : w.write text value = .ok w')
    (hpeek : w'.peek text = .ok value) : w.Takes text value := by
  refine ⟨hform, ⟨w', h⟩, ?_⟩
  rintro ⟨path, r, hparse, hr, hleads⟩
  obtain ⟨path', hparse', -, halter⟩ := write_eq_ok_iff.mp h
  obtain rfl : path' = path := Option.some.inj (hparse'.symm.trans hparse)
  obtain ⟨r', hr', hafter⟩ := container?_of_alterAt halter
  obtain rfl : r' = r := Option.some.inj (hr'.symm.trans hr)
  obtain ⟨path, hparse, hat⟩ := (require_bind_eq_ok_iff _ _ _).mp hpeek
  obtain rfl : path = path' := Option.some.inj (hparse.symm.trans hparse')
  obtain ⟨s, hs, hanswer⟩ := peekAt_eq_ok_iff.mp hat
  obtain rfl : s = _ := Option.some.inj (hs.symm.trans hafter)
  exact Record.isObject_of_answer_assign hanswer hleads

/-- What is taken is shown, and the cell holds something of its own then. -/
theorem Takes.peek_of_write (htakes : w.Takes text value) (h : w.write text value = .ok w') :
    w'.peek text = .ok value ∧ (w'.own? text).isSome = true := by
  obtain ⟨path, hparse, -, halter⟩ := write_eq_ok_iff.mp h
  obtain ⟨r, hr, hr'⟩ := container?_of_alterAt halter
  obtain ⟨hanswer, hown⟩ := Record.answer_assign htakes.form
    fun hleads => htakes.shown ⟨path, r, hparse, hr, hleads⟩
  refine ⟨(require_bind_eq_ok_iff _ _ _).mpr ⟨path, hparse, peekAt_eq_ok_iff.mpr ⟨_, hr', hanswer⟩⟩,
    ?_⟩
  simpa [own?, hparse, held?, hr'] using hown

/-- What a step leaves of a cell that it does not write. -/
structure KeepsCell (w w' : World) (text : String) : Prop where
  own : w'.own? text = w.own? text
  there : ∀ v, w.peek text = .ok v → ∃ v', w'.peek text = .ok v'
  leads : w'.Leads text → w.Leads text

theorem KeepsCell.refl (w : World) (text : String) : w.KeepsCell w text :=
  ⟨rfl, fun v hv => ⟨v, hv⟩, id⟩

/-- A cell that holds something shows it on. -/
theorem KeepsCell.peek (h : w.KeepsCell w' text) (hown : (w.own? text).isSome = true) :
    w'.peek text = w.peek text := by
  have hsame := h.own
  unfold own? at hsame hown
  cases hparse : Path.parse? text with
  | none =>
    rw [hparse] at hown
    cases hown
  | some path =>
    rw [hparse, Option.bind_some] at hsame hown
    rw [Option.bind_some] at hsame
    obtain ⟨v, hv⟩ := Option.isSome_iff_exists.mp hown
    obtain ⟨r, hr, hget⟩ := Option.bind_eq_some_iff.mp hv
    obtain ⟨r', hr', hget'⟩ := Option.bind_eq_some_iff.mp (hsame.trans hv)
    have hanswer : r'.answer path.name = r.answer path.name := by
      unfold Record.answer
      rw [Record.find?_congr_of_isSome (hget'.trans hget.symm) (by rw [hget]; rfl)]
    have hpeek : ∀ {u : World} {r : Record Value}, u.container? path = some r →
        u.peek text = .ok (r.answer path.name) := fun hr =>
      (require_bind_eq_ok_iff _ _ _).mpr ⟨path, hparse, peekAt_eq_ok_iff.mpr ⟨_, hr, rfl⟩⟩
    rw [hpeek hr, hpeek hr', hanswer]

/-- Values that a cell takes it takes later as well, if nothing else has been written to it. -/
theorem KeepsCell.takes (h : w.KeepsCell w' text) (htakes : w.Takes text value) :
    w'.Takes text value := by
  obtain ⟨u, hu⟩ := htakes.written
  obtain ⟨base, hbase⟩ := peek_succeeds_of_write hu
  obtain ⟨now, hnow⟩ := h.there base hbase
  exact ⟨htakes.form, write_succeeds_of_write hu hnow, fun hleads => htakes.shown (h.leads hleads)⟩

/-- The same goes for values after one that has been taken. -/
theorem Takes.after_write (htakes : w.Takes text value) (hformer : w.Takes text former)
    (h : w.write text former = .ok w') : w'.Takes text value := by
  obtain ⟨u, hu⟩ := htakes.written
  refine ⟨htakes.form, write_succeeds_of_write hu (hformer.peek_of_write h).1, ?_⟩
  rintro ⟨path, s, hparse, hs, hleads⟩
  obtain ⟨path', hparse', -, halter⟩ := write_eq_ok_iff.mp h
  obtain rfl : path' = path := Option.some.inj (hparse'.symm.trans hparse)
  obtain ⟨r, hr, hr'⟩ := container?_of_alterAt halter
  obtain rfl : s = _ := Option.some.inj (hs.symm.trans hr')
  exact htakes.shown
    ⟨path', r, hparse', hr, Record.leads_of_leads_assign hformer.form hleads⟩

theorem keepsCell_of_alterAt (hf : ∀ name r another, another ≠ name →
      (f name r).get? another = r.get? another)
    (hparse : Path.parse? other = some path) (h : w.alterAt path f = .ok w')
    (hother : text ≠ other) : w.KeepsCell w' text := by
  have hown := own?_of_alterAt hf hparse h hother
  have hne : ∀ another, Path.parse? text = some another → another ≠ path := by
    rintro another hanother rfl
    exact hother (Path.eq_of_parse? hanother hparse)
  refine ⟨hown, ?_, ?_⟩
  · intro v hv
    obtain ⟨another, hanother, hat⟩ := (require_bind_eq_ok_iff _ _ _).mp hv
    obtain ⟨r, hr, -⟩ := peekAt_eq_ok_iff.mp hat
    have hthere : ∃ r', w'.container? another = some r' := by
      rcases container?_of_alterAt_ne h another with hsame | ⟨_, -, hr', -⟩
      · exact ⟨r, hsame.trans hr⟩
      · exact ⟨_, hr'⟩
    obtain ⟨r', hr'⟩ := hthere
    exact ⟨_, (require_bind_eq_ok_iff _ _ _).mpr
      ⟨another, hanother, peekAt_eq_ok_iff.mpr ⟨r', hr', rfl⟩⟩⟩
  · rintro ⟨another, r', hanother, hr', hleads⟩
    refine ⟨another, ?_⟩
    rcases container?_of_alterAt_ne h another with hsame | ⟨r, hr, hafter, hname⟩
    · exact ⟨r', hanother, hsame ▸ hr', hleads⟩
    · refine ⟨r, hanother, hr, ?_⟩
      obtain rfl := Option.some.inj (hr'.symm.trans hafter)
      rw [← Record.leads_congr (hf _ r _ fun heq => hne another hanother (hname heq))]
      exact hleads

theorem keepsCell_of_write (h : w.write other value = .ok w') (hother : text ≠ other) :
    w.KeepsCell w' text := by
  obtain ⟨path, hparse, -, halter⟩ := write_eq_ok_iff.mp h
  exact keepsCell_of_alterAt (fun _ _ _ => Record.get?_assign_of_ne) hparse halter hother

theorem keepsCell_of_unset (h : w.unset other = .ok w') (hother : text ≠ other) :
    w.KeepsCell w' text := by
  obtain ⟨path, hparse, halter⟩ := unset_eq_ok_iff.mp h
  exact keepsCell_of_alterAt (fun _ _ _ => Record.get?_drop_of_ne) hparse halter hother

end World

theorem Ledger.keepsCell_of_apply {w w' : World} {text other : String} {value : Value}
    (h : Ledger.apply w other value = .ok w') (hother : text ≠ other) : w.KeepsCell w' text := by
  rcases Ledger.write_or_unset_of_apply h with hwrite | ⟨-, hunset⟩
  · exact World.keepsCell_of_write hwrite hother
  · exact World.keepsCell_of_unset hunset hother

end Harbormaster
