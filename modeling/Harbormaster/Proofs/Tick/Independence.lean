import Harbormaster.Proofs.Action.Footprint
import Harbormaster.Proofs.Tick.Bystander

/-!
Rules that keep out of each other's way. Where no rule reads or writes a path that another
one writes, the ledger never finds two writers of a cell, so every rule does in its turn
what it would do alone in the world, and no turn changes what another rule sees. The world
at the end is put together from what the rules make of it one by one, in whatever order
they had their turns.
-/

namespace Harbormaster

namespace Ledger

variable {l : Ledger} {w : World} {request : WriteRequest} {rules : List Rule}

/-- A ledger of cells that knows of one writer only for each that one of the rules writes. -/
structure Divided (rules : List Rule) (l : Ledger) : Prop where
  spelled : ∀ text entry, l.entries.get? text = some entry → ∃ path, Path.parse? text = some path
  sole : ∀ rule ∈ rules, ∀ text entry, l.entries.get? text = some entry →
    ∀ path ∈ rule.writes, Path.parse? text = some path → entry.SoleWriter rule.id

theorem divided_beginTick (rules : List Rule) (l : Ledger) (tick : Value) :
    (l.beginTick tick).Divided rules :=
  ⟨fun _ _ hentry => (nomatch hentry), fun _ _ _ _ hentry => (nomatch hentry)⟩

/-- Without another writer of its cell a write comes to what the cell makes of it. -/
theorem write_of_sole (hsole : ∀ entry, l.entries.get? request.path = some entry →
      entry.SoleWriter request.ruleId) :
    (w.write request.path request.value).toOption = none ∧
        (∃ failure, l.write w request = ⟨l, w, .error failure, []⟩) ∨
      ∃ world entry, w.write request.path request.value = .ok world ∧
        entry.SoleWriter request.ruleId ∧
        l.write w request = ⟨l.put request.path entry, world, .ok ⟨request.value, none⟩, []⟩ := by
  unfold Ledger.write
  cases hentry : l.entries.get? request.path with
  | none =>
    dsimp only
    unfold writeFirst
    cases hwrite : w.write request.path request.value with
    | error failure =>
      refine .inl ⟨rfl, ?_⟩
      cases w.peek request.path with
      | error failure => exact ⟨failure, rfl⟩
      | ok base => exact ⟨failure, rfl⟩
    | ok world =>
      obtain ⟨base, hbase⟩ := World.peek_succeeds_of_write hwrite
      rw [hbase]
      refine .inr ⟨world, firstEntry base request, rfl, ?_, rfl⟩
      intro writer hwriter
      rw [List.mem_singleton.mp hwriter]
  | some entry =>
    have hall : entry.writers.all (·.ruleId = request.ruleId) = true := by
      simpa [CellEntry.SoleWriter] using hsole entry hentry
    dsimp only
    rw [if_pos hall]
    unfold writeAgain
    cases hwrite : w.write request.path request.value with
    | error failure => exact .inl ⟨rfl, failure, rfl⟩
    | ok world =>
      refine .inr ⟨world, updatedEntry entry request, rfl, ?_, rfl⟩
      intro writer hwriter
      rcases List.mem_append.mp hwriter with hformer | hlast
      · exact hsole entry hentry writer hformer
      · rw [List.mem_singleton.mp hlast]

theorem Divided.put (h : l.Divided rules) {text : String} {entry : CellEntry}
    (hspelled : ∃ path, Path.parse? text = some path)
    (hentry : ∀ rule ∈ rules, ∀ path ∈ rule.writes, Path.parse? text = some path →
      entry.SoleWriter rule.id) : (l.put text entry).Divided rules := by
  constructor
  · intro other held hheld
    simp only [Ledger.put, Record.get?_set] at hheld
    split at hheld
    · rename_i htext
      rwa [htext]
    · exact h.spelled other held hheld
  · intro rule hrule other held hheld path hpath hparse
    simp only [Ledger.put, Record.get?_set] at hheld
    split at hheld
    · rename_i htext
      cases hheld
      exact hentry rule hrule path hpath (htext ▸ hparse)
    · exact h.sole rule hrule other held hheld path hpath hparse

end Ledger

structure Stage.LeadsTo (rules : List Rule) (s : Stage) (w : World) (s' : Stage) : Prop where
  world : s'.world = w
  divided : s'.ledger.Divided rules
  records : s'.ledger.records = s.ledger.records
  bus : s'.bus = s.bus

namespace Stage

variable {s s' s'' : Stage} {w w' : World} {rules : List Rule} {rule : Rule} {action : Action}
  {known : String → Bool}

theorem LeadsTo.refl (h : s.ledger.Divided rules) : s.LeadsTo rules s.world s :=
  ⟨rfl, h, rfl, rfl⟩

theorem LeadsTo.trans (h : s.LeadsTo rules w s') (h' : s'.LeadsTo rules w' s'') :
    s.LeadsTo rules w' s'' :=
  ⟨h'.world, h'.divided, h'.records.trans h.records, h'.bus.trans h.bus⟩

/-- Only one of independent rules writes a path. -/
theorem id_eq_of_writes (hindependent : Rule.Independent rules) {other : Rule}
    (hrule : rule ∈ rules) (hother : other ∈ rules) {path : Path} (hpath : path ∈ rule.writes)
    (hwrites : path ∈ other.writes) : rule.id = other.id := by
  by_contra hne
  exact (hindependent rule hrule other hother hne path hpath).2 hwrites

/-- A write of one of independent rules does to the stage what it does to the world, and fails
where it fails there. -/
theorem leadsTo_performWrite (hindependent : Rule.Independent rules)
    (hdivided : s.ledger.Divided rules) (hrule : rule ∈ rules) {target : String}
    {value before : Value} {range : Option ClampRange} {message : String}
    (howns : ∀ path, Path.parse? target = some path → path ∈ rule.writes) :
    s.LeadsTo rules ((s.world.write target value).toOption.getD s.world)
        (s.performWrite rule action target value range before message).stage ∧
      (s.performWrite rule action target value range before message).result.toOption.isSome =
        (s.world.write target value).toOption.isSome := by
  have hsole : ∀ entry, s.ledger.entries.get? target = some entry → entry.SoleWriter rule.id := by
    intro entry hentry
    obtain ⟨path, hparse⟩ := hdivided.spelled target entry hentry
    exact hdivided.sole rule hrule target entry hentry path (howns path hparse) hparse
  unfold performWrite
  dsimp only
  rcases @Ledger.write_of_sole s.ledger s.world ⟨target, value, rule.id, rule.priority, action,
    rule.metadata, range⟩ hsole with ⟨hnone, failure, hwrite⟩ | ⟨world, entry, hworld, hown, hwrite⟩
  · rw [hwrite, hnone]
    exact ⟨.refl hdivided, rfl⟩
  · obtain ⟨written, hspelled, -⟩ := (World.require_bind_eq_ok_iff _ _ _).mp hworld
    rw [hwrite, hworld]
    refine ⟨⟨rfl, hdivided.put ⟨written, hspelled⟩ ?_, rfl, rfl⟩, rfl⟩
    intro other hother path hpath hparse
    rw [← id_eq_of_writes hindependent hrule hother (howns path hparse) hpath]
    exact hown

/-- An action of one of independent rules does to the stage what it does to the world alone,
and fails where it fails there. -/
theorem leadsTo_execute (known : String → Bool) (hindependent : Rule.Independent rules)
    (hdivided : s.ledger.Divided rules) (hrule : rule ∈ rules) (haction : action ∈ rule.actions)
    (hkind : action.kind.keepsToCells = true) :
    s.LeadsTo rules ((s.world.act known rule action).getD s.world)
        (s.execute known rule action).stage ∧
      (s.execute known rule action).result.toOption.isSome =
        (s.world.act known rule action).isSome := by
  unfold execute World.act
  cases hdeed : Deed.ofAction known rule action s.world with
  | error failure => exact ⟨.refl hdivided, rfl⟩
  | ok deed =>
    cases Deed.of_ofAction hdeed with
    | recommend | trigger | log => exact ⟨.refl hdivided, rfl⟩
    | spawn _ _ _ hspawns =>
      rw [hspawns] at hkind
      cases hkind
    | @write value range before message hmutating =>
      have howns : ∀ path, Path.parse? action.target.plainText = some path →
          path ∈ rule.writes := by
        intro path hparse
        refine List.mem_flatMap.mpr ⟨action, haction, ?_⟩
        rw [Action.writes, if_pos hmutating, Action.targetPath, hparse]
        exact List.mem_singleton_self path
      exact leadsTo_performWrite hindependent hdivided hrule howns

end Stage

namespace Rule

variable {rules order order' : List Rule} {rule : Rule} {known known' : String → Bool} {w : World}

def runAlone (known : String → Bool) (order : List Rule) (w : World) : World :=
  order.foldl (fun w rule => rule.alone known w) w

/-- The same rules in another order and with other priorities. -/
def Rearranged (order order' : List Rule) : Prop :=
  (order'.map unranked).Perm (order.map unranked)

theorem Rearranged.symm (h : Rearranged order order') : Rearranged order' order := List.Perm.symm h

theorem Rearranged.of_perm (h : order'.Perm order) : Rearranged order order' := h.map _

theorem Rearranged.trans {order'' : List Rule} (h : Rearranged order order')
    (h' : Rearranged order' order'') : Rearranged order order'' := List.Perm.trans h' h

/-- Every rule has its counterpart, which differs in its priority at most. -/
theorem Rearranged.counterpart (h : Rearranged order order') {rule' : Rule}
    (hrule : rule' ∈ order') : ∃ rule ∈ order, ∃ priority, rule' = { rule with priority } := by
  obtain ⟨rule, hmember, hsame⟩ := List.mem_map.mp
    ((List.Perm.mem_iff h).mp (List.mem_map_of_mem (f := unranked) hrule))
  exact ⟨rule, hmember, eq_of_unranked hsame.symm⟩

theorem Rearranged.ids (h : Rearranged order order') :
    (order'.map (·.id)).Perm (order.map (·.id)) := by
  have hids := List.Perm.map Rule.id h
  rw [List.map_map, List.map_map] at hids
  exact hids

/-- The same rules fire. -/
theorem Rearranged.fired (h : Rearranged order order') (w : World) :
    ((order'.filter (·.fires w)).map (·.id)).Perm ((order.filter (·.fires w)).map (·.id)) := by
  have hunranked : ∀ rules : List Rule, (rules.filter (·.fires w)).map (·.id) =
      ((rules.map unranked).filter (·.fires w)).map (·.id) := by
    intro rules
    rw [List.filter_map, List.map_map]
    rfl
  rw [hunranked order', hunranked order]
  exact (List.Perm.filter _ h).map _

theorem Rearranged.independent (h : Rearranged order order') (hindependent : Independent order) :
    Independent order' := by
  intro rule' hrule' other' hother' hne path hpath
  obtain ⟨rule, hrule, _, rfl⟩ := h.counterpart hrule'
  obtain ⟨other, hother, _, rfl⟩ := h.counterpart hother'
  exact hindependent rule hrule other hother hne path hpath

theorem Independent.subset (h : Independent rules) (hsubset : order ⊆ rules) : Independent order :=
  fun rule hrule other hother => h rule (hsubset hrule) other (hsubset hother)

/-- Rules that only have effects on the cells that they write, and so none on what records fall
back on. -/
def KeepToCells (rules : List Rule) : Prop :=
  ∀ rule ∈ rules, ∀ action ∈ rule.actions, action.kind.keepsToCells = true ∧ action.SparesBase

instance (rules : List Rule) : Decidable (KeepToCells rules) :=
  inferInstanceAs (Decidable (∀ rule ∈ rules, ∀ action ∈ rule.actions,
    action.kind.keepsToCells = true ∧ action.SparesBase))

theorem KeepToCells.kinds (h : KeepToCells rules) (hrule : rule ∈ rules) :
    ∀ action ∈ rule.actions, action.kind.keepsToCells = true :=
  fun action haction => (h rule hrule action haction).1

theorem KeepToCells.spares (h : KeepToCells rules) (hrule : rule ∈ rules) : rule.SparesBase :=
  fun action haction => (h rule hrule action haction).2

theorem Rearranged.keepToCells (h : Rearranged order order') (hkinds : KeepToCells order) :
    KeepToCells order' := by
  intro rule' hrule'
  obtain ⟨rule, hrule, _, rfl⟩ := h.counterpart hrule'
  exact hkinds rule hrule

/-- Independent rules leave the paths that a rule reads or writes as they are. -/
theorem agrees_alone_of_independent {first : Rule} (hindependent : Independent rules)
    (hkinds : KeepToCells rules) (hfirst : first ∈ rules) (hrule : rule ∈ rules)
    (hne : first.id ≠ rule.id) :
    World.Agrees (fun path => path ∈ rule.reads ∨ path ∈ rule.writes) (first.alone known w) w := by
  refine (agrees_alone (hkinds.spares hfirst) known w).mono ?_
  rintro path (hreads | hwrites) hpath
  · exact (hindependent first hfirst rule hrule hne path hpath).1 hreads
  · exact (hindependent first hfirst rule hrule hne path hpath).2 hwrites

/-- What no rule writes stays as it is. -/
theorem agrees_runAlone (known : String → Bool) (hkinds : KeepToCells order) (w : World) :
    World.Agrees (fun path => ∀ rule ∈ order, path ∉ rule.writes) (runAlone known order w) w := by
  induction order generalizing w with
  | nil => exact .refl _ _
  | cons first rest ih =>
    have hrest : KeepToCells rest :=
      fun other hother => hkinds other (List.mem_cons_of_mem _ hother)
    refine ((ih hrest (first.alone known w)).mono fun path hpath rule hrule =>
      hpath rule (List.mem_cons_of_mem _ hrule)).trans ?_
    exact (agrees_alone (hkinds.spares List.mem_cons_self) known w).mono fun path hpath =>
      hpath first List.mem_cons_self

/-- What a rule writes is in the end as the rule alone would have left it. -/
theorem agrees_runAlone_of_mem (hindependent : Independent order)
    (hdistinct : (order.map (·.id)).Nodup) (hkinds : KeepToCells order) (hrule : rule ∈ order)
    (w : World) : World.Agrees (· ∈ rule.writes) (runAlone known order w) (rule.alone known w) := by
  induction order generalizing w with
  | nil => cases hrule
  | cons first rest ih =>
    rw [List.map_cons, List.nodup_cons] at hdistinct
    obtain ⟨hfresh, hdistinct⟩ := hdistinct
    have hne : ∀ other ∈ rest, first.id ≠ other.id := by
      intro other hother hid
      exact hfresh (hid ▸ List.mem_map_of_mem hother)
    have hothers : KeepToCells rest :=
      fun other hother => hkinds other (List.mem_cons_of_mem _ hother)
    rcases List.mem_cons.mp hrule with rfl | hlater
    · refine (agrees_runAlone known hothers (rule.alone known w)).mono ?_
      intro path hpath other hother
      exact (hindependent rule hrule other (List.mem_cons_of_mem _ hother) (hne other hother) path
        hpath).2
    · have hrest := ih (hindependent.subset (List.subset_cons_self _ _)) hdistinct
        (fun other hother => hkinds other (List.mem_cons_of_mem _ hother)) hlater
        (first.alone known w)
      have hsame : World.Agrees (fun path => path ∈ rule.reads ∨ path ∈ rule.writes)
          (first.alone known w) w :=
        agrees_alone_of_independent hindependent hkinds List.mem_cons_self hrule (hne rule hlater)
      have halone : World.Agrees (fun path => path ∈ rule.reads ∨ path ∈ rule.writes)
          (rule.alone known (first.alone known w)) (rule.alone known w) :=
        alone_congr rfl hsame (hkinds.kinds hrule) (hkinds.spares hrule) (fun _ => Or.inl)
          (fun _ => Or.inr)
      exact hrest.trans (halone.mono fun _ => Or.inr)

/-- Rearranging independent rules makes no difference to the world they end in. -/
theorem Rearranged.agrees (h : Rearranged order order') (hindependent : Independent order)
    (hdistinct : (order.map (·.id)).Nodup) (hkinds : KeepToCells order) (w : World) :
    World.Agrees (fun _ => True) (runAlone known' order' w) (runAlone known order w) := by
  have hdistinct' : (order'.map (·.id)).Nodup := h.ids.nodup_iff.mpr hdistinct
  have hrun := agrees_runAlone known hkinds w
  have hrun' := agrees_runAlone known' (h.keepToCells hkinds) w
  refine ⟨hrun'.events.trans hrun.events.symm, fun path _ => ?_⟩
  by_cases hwritten : ∃ rule ∈ order, path ∈ rule.writes
  · obtain ⟨rule, hrule, hpath⟩ := hwritten
    obtain ⟨rule', hrule', priority, rfl⟩ := h.symm.counterpart hrule
    have halone : World.Agrees (fun _ => True) (rule'.alone known' w)
        (alone { rule' with priority } known w) :=
      alone_congr rfl (.refl _ w) (hkinds.kinds hrule) (hkinds.spares hrule) (fun _ _ => trivial)
        fun _ _ => trivial
    have hend : World.Agrees (· ∈ rule'.writes) (runAlone known' order' w) (rule'.alone known' w) :=
      agrees_runAlone_of_mem (h.independent hindependent) hdistinct' (h.keepToCells hkinds) hrule' w
    rw [hend.parts path hpath, halone.parts path trivial,
      (agrees_runAlone_of_mem hindependent hdistinct hkinds hrule w).parts path hpath]
  · have hnone : ∀ rule ∈ order, path ∉ rule.writes := fun rule hrule hpath =>
      hwritten ⟨rule, hrule, hpath⟩
    have hnone' : ∀ rule' ∈ order', path ∉ rule'.writes := by
      intro rule' hrule'
      obtain ⟨rule, hrule, _, rfl⟩ := h.counterpart hrule'
      exact hnone rule hrule
    rw [hrun'.parts path hnone', hrun.parts path hnone]

end Rule

namespace Tick

variable {r : TickRules} {waiting rules order : List Rule} {source : QueueEntry} {rule : Rule}

/-- The actions of one of independent rules do to the stage what they do to the world alone. -/
theorem leadsTo_applyActions (hindependent : Rule.Independent rules) (hrule : rule ∈ rules)
    {actions : List Action} (hactions : actions ⊆ rule.actions)
    (hkinds : ∀ action ∈ actions, action.kind.keepsToCells = true) (t : Tick)
    (scheduled : List QueueEntry) (hdivided : t.stage.ledger.Divided rules) :
    t.stage.LeadsTo rules (t.stage.world.actAll r.known rule actions)
      (applyActions r waiting source rule actions t scheduled).1.stage := by
  induction actions generalizing t scheduled with
  | nil => exact .refl hdivided
  | cons action rest ih =>
    have hkind := hkinds action List.mem_cons_self
    obtain ⟨hleads, hresult⟩ := Stage.leadsTo_execute r.known hindependent hdivided hrule
      (hactions List.mem_cons_self) hkind
    rw [applyActions_cons, World.actAll]
    generalize t.stage.world.act r.known rule action = acted at hleads hresult ⊢
    cases happlied : (t.stage.execute r.known rule action).result with
    | error failure =>
      rw [happlied] at hresult
      cases acted with
      | none => exact hleads
      | some => cases hresult
    | ok a =>
      rw [happlied] at hresult
      cases acted with
      | none => cases hresult
      | some w =>
        have hnone : a.triggerRequest = none := by
          by_contra hasks
          rw [Stage.kind_of_request happlied hasks] at hkind
          cases hkind
        dsimp only
        rw [hnone]
        obtain ⟨_, _, hrecorded⟩ := recordApplied_annotates (t.perform r rule action) rule a
        have hrest := ih (fun _ hother => hactions (List.mem_cons_of_mem _ hother))
          (fun other hother => hkinds other (List.mem_cons_of_mem _ hother))
          ((t.perform r rule action).recordApplied rule a) scheduled
        rw [hrecorded] at hrest ⊢
        have hworld : (t.perform r rule action).stage.world = w := hleads.world
        have hnext := hleads.trans (hrest hleads.divided)
        rwa [hworld] at hnext

/-- The turn of one of independent rules does what the rule does alone. -/
theorem leadsTo_evaluateRule (r : TickRules) (waiting : List Rule) (source : QueueEntry)
    (hindependent : Rule.Independent rules) (hrule : rule ∈ rules)
    (hkinds : ∀ action ∈ rule.actions, action.kind.keepsToCells = true) (t : Tick)
    (hdivided : t.stage.ledger.Divided rules) :
    t.stage.LeadsTo rules (rule.alone r.known t.stage.world)
      (evaluateRule r waiting source rule t).1.stage := by
  unfold evaluateRule Rule.alone Rule.fires
  dsimp only
  split
  · exact leadsTo_applyActions hindependent hrule (List.Subset.refl _) hkinds
      (note { t with drafts := t.drafts ++ [_] } _) [] hdivided
  · exact .refl hdivided

/-- The turns of independent rules, one after the other, do what the rules do alone. -/
theorem leadsTo_turns (hindependent : Rule.Independent rules) (hkinds : Rule.KeepToCells rules)
    (horder : order ⊆ rules) (t : Tick) (hdivided : t.stage.ledger.Divided rules) :
    t.stage.LeadsTo rules (Rule.runAlone r.known order t.stage.world) (turns r order t).stage := by
  induction order generalizing t with
  | nil => exact .refl hdivided
  | cons rule rest ih =>
    have hrule := horder List.mem_cons_self
    have hfirst := leadsTo_evaluateRule r rest (.base rule) hindependent hrule
      (hkinds.kinds hrule) t hdivided
    have hrest := ih (fun _ hother => horder (List.mem_cons_of_mem _ hother))
      (evaluateRule r rest (.base rule) rule t).1 hfirst.divided
    rw [hfirst.world] at hrest
    exact hfirst.trans hrest

/-- Which independent rules fire can be told before the first turn. -/
theorem outcomes_turns (hindependent : Rule.Independent rules) (hkinds : Rule.KeepToCells rules)
    (horder : order ⊆ rules) (hdistinct : (order.map (·.id)).Nodup) (t : Tick)
    (hdivided : t.stage.ledger.Divided rules) :
    (turns r order t).outcomes =
      t.outcomes ++ order.map fun rule => (rule.id, rule.fires t.stage.world) := by
  induction order generalizing t with
  | nil => simp [turns]
  | cons rule rest ih =>
    rw [List.map_cons, List.nodup_cons] at hdistinct
    obtain ⟨hfresh, hdistinct⟩ := hdistinct
    have hrule := horder List.mem_cons_self
    have hlater : rest ⊆ rules := fun _ hother => horder (List.mem_cons_of_mem _ hother)
    have hfirst := leadsTo_evaluateRule r rest (.base rule) hindependent hrule
      (hkinds.kinds hrule) t hdivided
    have hsame : ∀ other ∈ rest, other.fires (rule.alone r.known t.stage.world) =
        other.fires t.stage.world := by
      intro other hother
      have hne : rule.id ≠ other.id := fun hid => hfresh (hid ▸ List.mem_map_of_mem hother)
      exact Rule.fires_congr rfl (Rule.agrees_alone_of_independent hindependent hkinds hrule
        (hlater hother) hne) fun _ => Or.inl
    have hrest := ih hlater hdistinct _ hfirst.divided
    rw [turns, hrest, outcomes_evaluateRule, hfirst.world, List.append_assoc, List.map_cons,
      List.map_congr_left fun other hother => by rw [hsame other hother]]
    rfl

end Tick

end Harbormaster
