import Harbormaster.Proofs.Input.Kept
import Harbormaster.Proofs.Path.Rendering
import Harbormaster.Proofs.Record.Members
import Harbormaster.Proofs.World.Discipline

/-!
The emergency stop. It is one write to the speed of each agent, and as every input it is
performed whole or not at all. A speed can be written exactly if the name of its agent is
a word, which nothing asks of the names of agents; so a single name that is none keeps
every agent going.
-/

namespace Harbormaster

namespace Agent

def withSpeed (a : Agent) (speed : Value) : Agent :=
  { a with fields := a.fields.set "speed" speed }

def withoutSpeed (a : Agent) : Agent := { a with fields := a.fields.erase "speed" }

theorem withoutSpeed_withSpeed (a : Agent) (speed : Value) :
    (a.withSpeed speed).withoutSpeed = a.withoutSpeed := by
  unfold withSpeed withoutSpeed
  rw [Record.erase_set]

end Agent

namespace World

variable {w w' : World} {name : String} {names : List String}

/-- All there is of a world but the speeds of its agents. -/
def withoutSpeeds (w : World) : World := { w with agents := w.agents.map Agent.withoutSpeed }

def halt (w : World) (name : String) : World :=
  { w with agents := w.agents.modify name (·.withSpeed 0) }

def Stands (w : World) (name : String) : Prop :=
  ∃ a, w.agents.get? name = some a ∧ a.fields.get? "speed" = some 0

theorem halt_of_present {a : Agent} (h : w.agents.get? name = some a) :
    w.halt name = { w with agents := w.agents.set name (a.withSpeed 0) } := by
  simp only [halt, Record.modify, h]

theorem halt_of_absent (h : w.agents.get? name = none) : w.halt name = w := by
  simp only [halt, Record.modify, h]

theorem withoutSpeeds_halt (w : World) (name : String) :
    (w.halt name).withoutSpeeds = w.withoutSpeeds := by
  cases h : w.agents.get? name with
  | none => rw [halt_of_absent h]
  | some a =>
    simp only [withoutSpeeds, halt_of_present h,
      Record.map_set_of_eq h (a.withoutSpeed_withSpeed 0)]

theorem stands_halt (h : w.agents.contains name = true) : (w.halt name).Stands name := by
  obtain ⟨a, ha⟩ := Option.isSome_iff_exists.mp h
  refine ⟨a.withSpeed 0, ?_, ?_⟩
  · rw [halt_of_present ha, Record.get?_set, if_pos rfl]
  · rw [Agent.withSpeed, Record.get?_set, if_pos rfl]

/-- No agent is set going again by another one that is halted. -/
theorem Stands.halt (h : w.Stands name) (other : String) : (w.halt other).Stands name := by
  by_cases hname : name = other
  · subst hname
    obtain ⟨a, ha, -⟩ := h
    exact stands_halt (by simp [Record.contains, ha])
  · obtain ⟨a, ha, hspeed⟩ := h
    refine ⟨a, ?_, hspeed⟩
    cases hother : w.agents.get? other with
    | none => rwa [halt_of_absent hother]
    | some b => rwa [halt_of_present hother, Record.get?_set, if_neg hname]

theorem keys_halt (w : World) (name : String) : (w.halt name).agents.keys = w.agents.keys := by
  cases h : w.agents.get? name with
  | none => rw [halt_of_absent h]
  | some a => rw [halt_of_present h, Record.keys_set h]

/-- Halting agents one after the other leaves all of them standing and nothing else
changed. -/
theorem halted (hnames : ∀ name ∈ names, name ∈ w.agents.keys) :
    (names.foldl halt w).withoutSpeeds = w.withoutSpeeds ∧
      ∀ name, name ∈ names ∨ w.Stands name → (names.foldl halt w).Stands name := by
  induction names generalizing w with
  | nil => exact ⟨rfl, fun name h => h.resolve_left List.not_mem_nil⟩
  | cons first rest ih =>
    have hrest : ∀ name ∈ rest, name ∈ (w.halt first).agents.keys := fun name hname =>
      keys_halt w first ▸ hnames name (List.mem_cons_of_mem _ hname)
    have hfirst : (w.halt first).Stands first :=
      stands_halt (Record.mem_keys_iff_contains.mp (hnames first List.mem_cons_self))
    obtain ⟨hothers, hstand⟩ := ih hrest
    refine ⟨hothers.trans (withoutSpeeds_halt w first), fun name h => hstand name ?_⟩
    rcases h with hname | hformer
    · rcases List.mem_cons.mp hname with rfl | hlater
      · exact .inr hfirst
      · exact .inl hlater
    · exact .inr (hformer.halt first)

/-- The write of a speed halts the agent, and succeeds exactly if the agent is there and
its name is a word. -/
theorem write_speed_eq_ok_iff : w.write ("agents." ++ name ++ ".speed") 0 = .ok w' ↔
    Path.isWord name.toList = true ∧ name ∈ w.agents.keys ∧ w' = w.halt name := by
  unfold write
  rw [require_bind_eq_ok_iff, Path.parse?_speed, Record.mem_keys_iff_contains]
  by_cases hword : Path.isWord name.toList = true
  · rw [if_pos hword]
    cases ha : w.agents.get? name with
    | none => simp [writeAt, ha, Record.contains]
    | some a =>
      rw [halt_of_present ha]
      simp only [writeAt, ha, hword, Record.contains, Option.isSome_some, true_and]
      constructor
      · rintro ⟨path, hpath, hok⟩
        cases hpath
        simp only [ha] at hok
        cases hok
        rfl
      · rintro rfl
        refine ⟨_, rfl, ?_⟩
        simp only [ha]
        rfl
  · simp [hword]

/-- What is stable includes which agents there are. -/
theorem stable_keys (names : List String) : Stable fun w => w.agents.keys = names := by
  have halter : ∀ {w w' : World} {path : Path} {f : String → Record Value → Record Value},
      w.agents.keys = names → w.alterAt path f = .ok w' → w'.agents.keys = names := by
    intro w w' path f h hok
    cases alters_of_alterAt hok with
    | environmentField | metric => exact h
    | agentField field ha => exact (Record.keys_set ha _).trans h
  refine ⟨?_, ?_, ?_, fun _ h => h, fun _ h => h⟩
  · intro w w' text value h hok
    obtain ⟨path, -, -, hat⟩ := write_eq_ok_iff.mp hok
    exact halter h hat
  · intro w w' text h hok
    obtain ⟨path, -, hat⟩ := unset_eq_ok_iff.mp hok
    exact halter h hat
  · intro w h
    rw [← h]
    simp [stored, Record.keys, Record.map, Function.comp_def]

end World

namespace Engine

variable {w w' : World} {names : List String} {t : Translator} {o : InputsOutcome} {stop : Input}

/-- The writes to the speeds of some agents come to a world exactly if all of the names are
words, and it is the one in which these agents have been halted. -/
theorem performWrites_speeds_eq_ok_iff (hnames : ∀ name ∈ names, name ∈ w.agents.keys) :
    performWrites (names.map fun name => ⟨"agents." ++ name ++ ".speed", 0⟩) w = .ok w' ↔
      (∀ name ∈ names, Path.isWord name.toList = true) ∧ w' = names.foldl World.halt w := by
  induction names generalizing w with
  | nil =>
    constructor
    · intro hok
      cases hok
      exact ⟨fun name hname => (List.not_mem_nil hname).elim, rfl⟩
    · rintro ⟨-, rfl⟩
      rfl
  | cons first rest ih =>
    have hrest : ∀ name ∈ rest, name ∈ (w.halt first).agents.keys := fun name hname =>
      World.keys_halt w first ▸ hnames name (List.mem_cons_of_mem _ hname)
    rw [List.map_cons, performWrites, List.forall_mem_cons, List.foldl_cons]
    cases hwrite : w.write ("agents." ++ first ++ ".speed") 0 with
    | ok w₁ =>
      obtain ⟨hword, -, rfl⟩ := World.write_speed_eq_ok_iff.mp hwrite
      simp only [ih hrest, hword, true_and]
    | error failure =>
      have hword : Path.isWord first.toList ≠ true := by
        intro hword
        have hok := World.write_speed_eq_ok_iff.mpr
          ⟨hword, hnames first List.mem_cons_self, rfl⟩
        rw [hwrite] at hok
        cases hok
      simp [hword]

/-- An input has stopped every agent: it was accepted, and in the world after it every
agent stands still, while there is no other difference to the world before. -/
structure Stopped (o o' : InputsOutcome) (stop : Input) : Prop where
  applied : o'.applied = o.applied ++ [stop.describe]
  failures : o'.failures = o.failures
  speeds : ∀ name ∈ o.world.agents.keys, o'.world.Stands name
  others : o'.world.withoutSpeeds = o.world.withoutSpeeds

/-- Where an input leads that the handler of the emergency stop translates. -/
theorem attempt_stop_eq_ok_iff
    (htype : stop.type.text?.bind t.handler? = some Handler.emergencyStop) :
    attempt t w stop = .ok w' ↔ (∀ name ∈ w.agents.keys, Path.isWord name.toList = true) ∧
      w' = (Text.sort w.stored.agents.keys).foldl World.halt w.stored := by
  have hkeys : ∀ name, name ∈ Text.sort w.stored.agents.keys ↔ name ∈ w.agents.keys := by
    intro name
    rw [Text.sort, List.mem_mergeSort]
    simp [World.stored, Record.keys, Record.map]
  have htranslate : t.translate stop w.stored = .ok ((Text.sort w.stored.agents.keys).map
      fun name => ⟨"agents." ++ name ++ ".speed", 0⟩) := by
    unfold Translator.translate
    rw [htype]
    rfl
  unfold attempt
  rw [htranslate]
  refine (performWrites_speeds_eq_ok_iff ?_).trans ?_
  · intro name hname
    exact List.mem_mergeSort.mp hname
  · simp only [hkeys]

/-- Where the name of some agent is no word, the emergency stop leaves the world as it was
and does not count among the inputs that were applied. -/
theorem applyInput_stop_of_not_isWord
    (htype : stop.type.text?.bind t.handler? = some Handler.emergencyStop) {name : String}
    (hname : name ∈ o.world.agents.keys) (hword : Path.isWord name.toList ≠ true) :
    (applyInput t o stop).world = o.world ∧ (applyInput t o stop).applied = o.applied := by
  cases hattempt : attempt t o.world stop with
  | ok w₁ => exact absurd (((attempt_stop_eq_ok_iff htype).mp hattempt).1 name hname) hword
  | error failure =>
    rw [applyInput_of_error hattempt]
    exact ⟨rfl, rfl⟩

/-- The emergency stop stops every agent exactly if all of their names are words, as long as
the copy that inputs are performed on is the world but for the speeds. -/
theorem stopped_iff (htype : stop.type.text?.bind t.handler? = some Handler.emergencyStop) :
    Stopped o (applyInput t o stop) stop ↔
      (∀ name ∈ o.world.agents.keys, Path.isWord name.toList = true) ∧
        o.world.stored.withoutSpeeds = o.world.withoutSpeeds := by
  by_cases hwords : ∀ name ∈ o.world.agents.keys, Path.isWord name.toList = true
  · have hworld : ∀ name ∈ Text.sort o.world.stored.agents.keys,
        name ∈ o.world.stored.agents.keys := fun name hname => List.mem_mergeSort.mp hname
    obtain ⟨hothers, hstand⟩ := World.halted hworld
    rw [applyInput_of_ok ((attempt_stop_eq_ok_iff htype).mpr ⟨hwords, rfl⟩)]
    constructor
    · intro h
      exact ⟨hwords, hothers.symm.trans h.others⟩
    · rintro ⟨-, hcopy⟩
      refine ⟨rfl, rfl, fun name hname => hstand name (.inl ?_), hothers.trans hcopy⟩
      have hkeys := (World.stable_keys o.world.agents.keys).stored rfl
      rw [Text.sort, List.mem_mergeSort, hkeys]
      exact hname
  · refine ⟨fun h => absurd h.applied ?_, fun h => absurd h.1 hwords⟩
    push Not at hwords
    obtain ⟨name, hname, hword⟩ := hwords
    rw [(applyInput_stop_of_not_isWord htype hname hword).2]
    simp

end Engine

end Harbormaster
