import Harbormaster.Input.Basic
import Harbormaster.Proofs.Record.Members
import Harbormaster.Proofs.World.Agreement
import Harbormaster.Proofs.World.Texts
import Harbormaster.Scenario

/-!
Cells of their own. Writing, reading and unsetting one cell keep the laws of a store: what
was written is read back, the later of two writes counts, a write to a cell that was unset
can be taken back, and no write is seen from any other cell. So the order of writes to
different cells does not matter, whichever of them are refused, except for the order in
which new members are listed. None of this holds of the name under which a record shows what
it falls back on: a list that is written there lends the record its length.
-/

namespace Harbormaster.World

variable {u v w w' : World} {path : Path} {text other : String} {former value : Value}
  {f g : String → Record Value → Record Value}

section OneCell

/-- Only what an operation does under the name of a cell counts. -/
theorem alterAt_congr (h : ∀ r, f path.name r = g path.name r) :
    w.alterAt path f = w.alterAt path g := by
  cases path with
  | event => rfl
  | environmentField field =>
    have hsame : ∀ r, f field r = g field r := h
    simp only [alterAt, hsame]
  | metric name =>
    have hsame : ∀ r, f name r = g name r := h
    simp only [alterAt, hsame]
  | agentField agent field =>
    have hsame : ∀ r, f field r = g field r := h
    simp only [alterAt, hsame]

/-- Altering a cell twice is altering it once by both operations. -/
theorem alterAt_alterAt (h : w.alterAt path f = .ok w') :
    w'.alterAt path g = w.alterAt path fun name r => g name (f name r) := by
  cases alters_of_alterAt h with
  | environmentField | metric => rfl
  | agentField field ha => simp [alterAt, ha, Record.set_set]

/-- A cell that has been altered is read as what its record then answers to its name. -/
theorem readAt_of_alterAt_self (hf : ∀ r, (f path.name r).find? path.name = some value)
    (h : w.alterAt path f = .ok w') : w'.readAt path = .ok value := by
  cases alters_of_alterAt h with
  | environmentField field =>
    have hfound : (f field w.environment).find? field = some value := hf w.environment
    simp [readAt, hfound]
  | metric name =>
    have hfound : (f name w.metrics).find? name = some value := hf w.metrics
    simp [readAt, hfound]
  | @agentField agent a field _ =>
    have hfound : (f field a.fields).find? field = some value := hf a.fields
    simp [readAt, hfound]

theorem read_of_write (h : w.write text value = .ok w') (htext : Path.SparesBase text) :
    w'.read text = .ok value := by
  obtain ⟨path, hparse, -, halter⟩ := write_eq_ok_iff.mp h
  have hname := htext path hparse
  refine (require_bind_eq_ok_iff _ _ _).mpr ⟨path, hparse, readAt_of_alterAt_self ?_ halter⟩
  intro r
  rw [Record.assign_of_ne hname, Record.find?_of_ne hname, Record.get?_set, if_pos rfl]
  rfl

/-- The later of two writes to a cell counts, as if there had been no other. -/
theorem write_write (h : w.write text former = .ok w') (htext : Path.SparesBase text) :
    w'.write text value = .ok u ↔ w.write text value = .ok u := by
  obtain ⟨path, hparse, -, halter⟩ := write_eq_ok_iff.mp h
  rw [write_eq_ok_iff, write_eq_ok_iff]
  refine exists_congr fun other => and_congr_right fun hother => and_congr_right fun _ => ?_
  obtain rfl : path = other := Option.some.inj (hparse.symm.trans hother)
  have hname := htext path hparse
  rw [alterAt_alterAt halter, alterAt_congr (f := fun name r =>
    (r.assign name former).assign name value) (g := fun name r => r.assign name value)]
  intro r
  simp only [Record.assign_of_ne hname, Record.set_set]

/-- A cell that holds nothing is not there, so that a write to it can be taken back. -/
theorem alterAt_erase_set (habsent : w.held? path = none)
    (h : w.alterAt path (fun name r => r.set name value) = .ok w') :
    w.alterAt path (fun name r => (r.set name value).erase name) = .ok w := by
  cases alters_of_alterAt h with
  | environmentField field =>
    have hfield : w.environment.get? field = none := habsent
    simp only [alterAt, Record.erase_set_of_absent hfield]
  | metric name =>
    have hname : w.metrics.get? name = none := habsent
    simp only [alterAt, Record.erase_set_of_absent hname]
  | @agentField agent a field ha =>
    have hfield : a.fields.get? field = none := by
      simpa [held?, container?, Path.name, ha] using habsent
    simp only [alterAt, ha, Record.erase_set_of_absent hfield, Record.set_self ha]

theorem unset_write (habsent : w.own? text = none) (h : w.write text value = .ok w')
    (htext : Path.SparesBase text) : w'.unset text = .ok w := by
  obtain ⟨path, hparse, -, halter⟩ := write_eq_ok_iff.mp h
  have hname := htext path hparse
  rw [own?, hparse] at habsent
  rw [alterAt_congr (g := fun name r => r.set name value)
    fun r => Record.assign_of_ne hname] at halter
  refine unset_eq_ok_iff.mpr ⟨path, hparse, ?_⟩
  rw [alterAt_congr (g := fun name r => r.erase name) fun r => Record.drop_of_ne hname,
    alterAt_alterAt halter]
  exact alterAt_erase_set habsent halter

/-- What can be read of a cell that can be written is what can be seen of it. -/
theorem readAt_eq_ok_iff (hcell : ∀ eventType key, path ≠ .event eventType key)
    (hvalue : value ≠ .missing) : w.readAt path = .ok value ↔ w.peekAt path = .ok value := by
  have hmember : ∀ found : Option Value, found = some value ↔ found.getD .missing = value := by
    intro found
    cases found with
    | none => simp [hvalue.symm]
    | some v => simp
  cases path with
  | event eventType key => exact absurd rfl (hcell eventType key)
  | environmentField field =>
    rw [peekAt, Except.ok.injEq, Record.answer, ← hmember]
    cases hfield : w.environment.find? field with
    | none | some => simp [readAt, hfield]
  | metric name =>
    rw [peekAt, Except.ok.injEq, Record.answer, ← hmember]
    cases hname : w.metrics.find? name with
    | none | some => simp [readAt, hname]
  | agentField agent field =>
    cases ha : w.agents.get? agent with
    | none => simp [readAt, peekAt, ha]
    | some a =>
      simp only [peekAt, ha, Except.ok.injEq, Record.answer, ← hmember]
      cases hfield : a.fields.find? field with
      | none | some => simp [readAt, ha, hfield]

theorem read_eq_ok_iff (hcell : ∀ eventType key, Path.parse? text ≠ some (.event eventType key))
    (hvalue : value ≠ .missing) : w.read text = .ok value ↔ w.peek text = .ok value := by
  unfold read peek Path.require
  cases hparse : Path.parse? text with
  | none => exact ⟨nofun, nofun⟩
  | some path =>
    refine readAt_eq_ok_iff ?_ hvalue
    rintro eventType key rfl
    exact hcell eventType key hparse

end OneCell

/-- A write that is refused leaves the world as it was. -/
def afterWrite (w : World) (write : Write) : World :=
  match w.write write.path write.value with
  | .ok w' => w'
  | .error _ => w

def afterWrites (w : World) (writes : List Write) : World := writes.foldl afterWrite w

/-- Two worlds that hold the same, but may list the members of a record in another order. -/
structure Same (u v : World) : Prop where
  cells : Agrees (fun _ => True) u v
  timeStep : u.timeStep = v.timeStep
  others : u.others = v.others

section ManyCells

variable {on : Path → Prop} {write : Write} {writes another : List Write}

theorem afterWrite_of_error {failure : Failure}
    (h : w.write write.path write.value = .error failure) : w.afterWrite write = w := by
  simp [afterWrite, h]

theorem afterWrite_of_ok (h : w.write write.path write.value = .ok w') :
    w.afterWrite write = w' := by
  simp [afterWrite, h]

/-- What is no cell of the world is left alone by every operation on a cell. -/
theorem rest_of_alterAt (h : w.alterAt path f = .ok w') :
    w'.timeStep = w.timeStep ∧ w'.others = w.others := by
  cases alters_of_alterAt h with
  | environmentField | metric | agentField => exact ⟨rfl, rfl⟩

theorem rest_afterWrite (w : World) (write : Write) :
    (w.afterWrite write).timeStep = w.timeStep ∧ (w.afterWrite write).others = w.others := by
  cases h : w.write write.path write.value with
  | error => simp [afterWrite_of_error h]
  | ok w' =>
    obtain ⟨path, -, -, halter⟩ := write_eq_ok_iff.mp h
    rw [afterWrite_of_ok h]
    exact rest_of_alterAt halter

theorem rest_afterWrites (w : World) (writes : List Write) :
    (w.afterWrites writes).timeStep = w.timeStep ∧ (w.afterWrites writes).others = w.others := by
  induction writes generalizing w with
  | nil => exact ⟨rfl, rfl⟩
  | cons write writes ih =>
    obtain ⟨htime, hothers⟩ := rest_afterWrite w write
    obtain ⟨htimes, hotherss⟩ := ih (w.afterWrite write)
    exact ⟨htimes.trans htime, hotherss.trans hothers⟩

/-- A write, taken or refused, is not seen from outside its own path. -/
theorem agrees_afterWrite (w : World) (write : Write) (hspares : Path.SparesBase write.path) :
    Agrees (fun path => Path.parse? write.path ≠ some path) (w.afterWrite write) w := by
  cases h : w.write write.path write.value with
  | error =>
    rw [afterWrite_of_error h]
    exact .refl _ _
  | ok w' =>
    rw [afterWrite_of_ok h]
    exact agrees_of_write h hspares

/-- Worlds that agree on the path of a write agree as before after it. -/
theorem Agrees.afterWrite (h : Agrees on u w) (hon : Covers on write.path)
    (hspares : Path.SparesBase write.path) :
    Agrees on (u.afterWrite write) (w.afterWrite write) := by
  have hwrite := h.write hon hspares write.value
  cases hu : u.write write.path write.value with
  | error =>
    cases hw : w.write write.path write.value with
    | error => rwa [afterWrite_of_error hu, afterWrite_of_error hw]
    | ok =>
      rw [hu, hw] at hwrite
      cases hwrite
  | ok u' =>
    cases hw : w.write write.path write.value with
    | error =>
      rw [hu, hw] at hwrite
      cases hwrite
    | ok w' =>
      rw [hu, hw] at hwrite
      cases hwrite with
      | some hagrees => rwa [afterWrite_of_ok hu, afterWrite_of_ok hw]

/-- Under a path a run of writes leaves what those to that path alone would leave. -/
theorem Agrees.afterWrites (h : Agrees (· = path) u w)
    (hspares : ∀ write ∈ writes, Path.SparesBase write.path) :
    Agrees (· = path) (u.afterWrites writes)
      (w.afterWrites (writes.filter fun write => Path.parse? write.path = some path)) := by
  induction writes generalizing u w with
  | nil => exact h
  | cons write writes ih =>
    obtain ⟨hspare, hrest⟩ := List.forall_mem_cons.mp hspares
    by_cases hpath : Path.parse? write.path = some path
    · rw [List.filter_cons_of_pos (by simpa using hpath)]
      refine ih (h.afterWrite ?_ hspare) hrest
      intro other hother
      exact Option.some.inj (hother.symm.trans hpath)
    · rw [List.filter_cons_of_neg (by simpa using hpath)]
      have hagrees := (agrees_afterWrite u _ hspare).mono fun other (hother : other = path) =>
        hother.symm ▸ hpath
      exact ih (hagrees.trans h) hrest

/-- What a run of writes leaves behind is settled by the order of the writes to each single
cell. -/
theorem same_afterWrites (w : World)
    (hspares : ∀ write ∈ writes, Path.SparesBase write.path)
    (hanother : ∀ write ∈ another, Path.SparesBase write.path)
    (hcells : ∀ text, writes.filter (·.path = text) = another.filter (·.path = text)) :
    (w.afterWrites writes).Same (w.afterWrites another) := by
  have hparses : ∀ path, writes.filter (fun write => Path.parse? write.path = some path) =
      another.filter fun write => Path.parse? write.path = some path := by
    intro path
    by_cases hspelt : ∃ text, Path.parse? text = some path
    · obtain ⟨text, htext⟩ := hspelt
      have hiff : ∀ write : Write, Path.parse? write.path = some path ↔ write.path = text :=
        fun write => ⟨fun hparse => Path.eq_of_parse? hparse htext, fun heq => heq ▸ htext⟩
      simp only [hiff]
      exact hcells text
    · have hnone : ∀ write : Write, Path.parse? write.path ≠ some path :=
        fun write hparse => hspelt ⟨_, hparse⟩
      simp [hnone]
  obtain ⟨htime, hothers⟩ := rest_afterWrites w writes
  obtain ⟨htime', hothers'⟩ := rest_afterWrites w another
  have hagrees : ∀ path, Agrees (· = path) (w.afterWrites writes) (w.afterWrites another) := by
    intro path
    have hown := (Agrees.refl (· = path) w).afterWrites hanother
    rw [← hparses] at hown
    exact ((Agrees.refl (· = path) w).afterWrites hspares).trans hown.symm
  exact ⟨⟨(hagrees (.metric "")).events, fun path _ => (hagrees path).parts path rfl⟩,
    htime.trans htime'.symm, hothers.trans hothers'.symm⟩

/-- Worlds that agree on the path of a write refuse it for the same reason. -/
theorem Agrees.write_eq_error_iff (h : Agrees on u w) (hon : Covers on text) (value : Value)
    (failure : Failure) :
    u.write text value = .error failure ↔ w.write text value = .error failure := by
  unfold World.write Path.require
  cases hparse : Path.parse? text with
  | none => rfl
  | some path =>
    have hsame := writeAt_congr (h.parts path (hon path hparse)) value
    simp only [Except.bind]
    generalize u.writeAt path value = left at hsame
    generalize w.writeAt path value = right at hsame
    cases left with
    | ok =>
      cases right with
      | ok => exact ⟨nofun, nofun⟩
      | error => cases hsame
    | error reason =>
      cases right with
      | ok => cases hsame
      | error => rw [Except.error.inj hsame]

/-- Every path is a cell of its own, if it is not what a record falls back on: it holds what
was last written to it, a refused write changes nothing, and neither writing it nor taking a
first write back is seen from any other path, so that writes to two paths can change
places. -/
theorem paths_are_cells_of_their_own (w : World) {p q : String} (hpq : p ≠ q)
    (hp : Path.SparesBase p) (hq : Path.SparesBase q) (a b : Value) :
    (∀ w', w.write p a = .ok w' →
      w'.read p = .ok a ∧ w'.peek p = .ok a ∧
        w'.read q = w.read q ∧ w'.peek q = w.peek q ∧
        (∀ u, w'.write p b = .ok u ↔ w.write p b = .ok u) ∧
        (w.own? p = none → w'.unset p = .ok w) ∧
        ∃ v, w.peek p = .ok v) ∧
      (∀ failure, w.write p a = .error failure → w.afterWrite ⟨p, a⟩ = w) ∧
      ((w.afterWrite ⟨p, a⟩).afterWrite ⟨q, b⟩).Same
        ((w.afterWrite ⟨q, b⟩).afterWrite ⟨p, a⟩) ∧
      (∀ failure, (w.afterWrite ⟨p, a⟩).write q b = .error failure ↔
        w.write q b = .error failure) ∧
      ((∀ eventType key, Path.parse? p ≠ some (.event eventType key)) → ∀ v, v ≠ .missing →
        (w.read p = .ok v ↔ w.peek p = .ok v)) := by
  -- A path that one text spells is not spelt by the other.
  have hcovers : Covers (fun path => Path.parse? p ≠ some path) q :=
    fun path hq hp => hpq (Path.eq_of_parse? hp hq)
  refine ⟨?taken, ?refused, ?swapped, ?reason, ?seen⟩
  case taken =>
    intro w' hwrite
    have hagrees := agrees_of_write hwrite hp
    exact ⟨read_of_write hwrite hp, peek_of_write hwrite hp, hagrees.read hcovers,
      hagrees.peek hcovers, fun _ => write_write hwrite hp,
      fun habsent => unset_write habsent hwrite hp, peek_succeeds_of_write hwrite⟩
  case refused =>
    intro failure hwrite
    simp [afterWrite, hwrite]
  case swapped =>
    have hcells : ∀ text, [Write.mk p a, ⟨q, b⟩].filter (·.path = text) =
        [⟨q, b⟩, ⟨p, a⟩].filter (·.path = text) := by
      intro text
      by_cases htext : p = text
      · subst htext
        simp [hpq.symm]
      · simp [htext, List.filter_cons]
    exact same_afterWrites w (by simp [hp, hq]) (by simp [hp, hq]) hcells
  case reason =>
    intro failure
    exact (agrees_afterWrite w ⟨p, a⟩ hp).write_eq_error_iff hcovers b failure
  case seen =>
    intro hcell v hvalue
    exact read_eq_ok_iff hcell hvalue

/-- In open water nothing is known of the tide. Writing it leaves the wind alone and can be
taken back. -/
theorem tide_is_a_cell_of_its_own :
    "environment.tide" ≠ "environment.wind_speed" ∧ Path.SparesBase "environment.tide" ∧
      Path.SparesBase "environment.wind_speed" ∧
      ∃ w', Scenario.openWater.write "environment.tide" (.number 3) = .ok w' ∧
        w'.read "environment.tide" = .ok (.number 3) ∧
        w'.read "environment.wind_speed" = Scenario.openWater.read "environment.wind_speed" ∧
        w'.unset "environment.tide" = .ok Scenario.openWater := by
  have htide : Path.parse? "environment.tide" = some (.environmentField "tide") := by
    decide +kernel
  have hwind : Path.parse? "environment.wind_speed" = some (.environmentField "wind_speed") := by
    decide +kernel
  have hspares : Path.SparesBase "environment.tide" := Path.sparesBase_of_parse? htide (by decide)
  have hspares' : Path.SparesBase "environment.wind_speed" :=
    Path.sparesBase_of_parse? hwind (by decide)
  have hwrite : Scenario.openWater.write "environment.tide" (.number 3) =
      .ok { Scenario.openWater with
        environment := Scenario.openWater.environment.assign "tide" (.number 3) } := by
    simp [write, Path.require, htide, Except.bind, writeAt, Value.isScalar]
  have habsent : Scenario.openWater.own? "environment.tide" = none := by decide +kernel
  have hother : "environment.tide" ≠ "environment.wind_speed" := by decide
  obtain ⟨hread, -, hsame, -, -, hunset, -⟩ := (paths_are_cells_of_their_own Scenario.openWater
    hother hspares hspares' (.number 3) (.number 10)).1 _ hwrite
  exact ⟨hother, hspares, hspares', _, hwrite, hread, hsame, hunset habsent⟩

/-- A world with one agent, of which nothing is known. -/
def adrift : World := { (default : World) with agents := .ofList [("tug", ⟨"tug", ∅, ∅⟩)] }

/-- A list that is written in place of what the fields of an agent fall back on gives them its
length: a cell that was not there can be read, though only another one was written. -/
theorem list_lends_its_length :
    "agents.tug.__proto__" ≠ "agents.tug.length" ∧
      (∀ v, adrift.read "agents.tug.length" ≠ .ok v) ∧
      ∃ w', adrift.write "agents.tug.__proto__" (.list [1, 2]) = .ok w' ∧
        w'.read "agents.tug.length" = .ok 2 := by
  have hbase : Path.parse? "agents.tug.__proto__" = some (.agentField "tug" "__proto__") := by
    decide +kernel
  have hlength : Path.parse? "agents.tug.length" = some (.agentField "tug" "length") := by
    decide +kernel
  have hread : ∀ w : World, w.read "agents.tug.length" = w.readAt (.agentField "tug" "length") := by
    intro w
    simp [read, Path.require, hlength, Except.bind]
  refine ⟨by decide, ?_, ?_⟩
  · intro v
    rw [hread]
    exact nofun
  · refine ⟨_, (require_bind_eq_ok_iff _ _ _).mpr ⟨_, hbase, rfl⟩, ?_⟩
    rw [hread]
    rfl

end ManyCells

end Harbormaster.World
