import Harbormaster.Proofs.Action.Deeds
import Harbormaster.Proofs.Conflict.Ends
import Harbormaster.Proofs.Expression.Reads

/-!
The footprints of actions and rules: the paths that they read and the paths that they
write, as far as these can be told from their texts. What a rule makes of a world when no
other rule has written its cells depends on its footprint only, and changes nothing outside
the paths that it writes. Actions that ask for rules or spawn events are left out: their
effects are not in cells.
-/

namespace Harbormaster

def ActionKind.keepsToCells : ActionKind → Bool
  | .triggerRule | .spawnEvent => false
  | _ => true

namespace Action

def targetPath (a : Action) : List Path := (Path.parse? a.target.plainText).toList

def reads (a : Action) : List Path :=
  match a.kind with
  | .set => a.value.reads
  | .add | .recommend => a.targetPath ++ a.value.reads
  | .clamp => a.targetPath ++ (a.minValue.reads ++ a.maxValue.reads)
  | .log => a.targetPath
  | .triggerRule => []
  | .spawnEvent => a.eventPayload.members.entries.flatMap fun m => m.2.reads

def writes (a : Action) : List Path := if a.kind.isMutating then a.targetPath else []

/-- Whether an action leaves alone what records fall back on. -/
def SparesBase (a : Action) : Prop := ∀ path ∈ a.writes, path.name ≠ Record.baseName

instance (a : Action) : Decidable a.SparesBase :=
  inferInstanceAs (Decidable (∀ path ∈ a.writes, path.name ≠ Record.baseName))

/-- Whether nothing but the cells that an action writes answers to their names. -/
def Ordinary (a : Action) : Prop := ∀ path ∈ a.writes, path.isOrdinary = true

instance (a : Action) : Decidable a.Ordinary :=
  inferInstanceAs (Decidable (∀ path ∈ a.writes, path.isOrdinary = true))

theorem mem_writes {a : Action} (hkind : a.kind.isMutating = true) {path : Path}
    (hparse : Path.parse? a.target.plainText = some path) : path ∈ a.writes := by
  rw [writes, if_pos hkind, targetPath, hparse]
  exact List.mem_singleton_self path

theorem SparesBase.target {a : Action} (h : a.SparesBase) (hkind : a.kind.isMutating = true) :
    Path.SparesBase a.target.plainText :=
  fun path hparse => h path (mem_writes hkind hparse)

theorem Ordinary.target {a : Action} (h : a.Ordinary) (hkind : a.kind.isMutating = true) :
    Path.Ordinary a.target.plainText :=
  fun path hparse => h path (mem_writes hkind hparse)

end Action

namespace Rule

def reads (rule : Rule) : List Path :=
  rule.conditions.flatMap (·.reads) ++ rule.actions.flatMap (·.reads)

def writes (rule : Rule) : List Path := rule.actions.flatMap (·.writes)

/-- Rules of which none reads or writes a path that another one writes. -/
def Independent (rules : List Rule) : Prop :=
  ∀ rule ∈ rules, ∀ other ∈ rules, rule.id ≠ other.id →
    ∀ path ∈ rule.writes, path ∉ other.reads ∧ path ∉ other.writes

instance (rules : List Rule) : Decidable (Independent rules) :=
  inferInstanceAs (Decidable (∀ rule ∈ rules, ∀ other ∈ rules, rule.id ≠ other.id →
    ∀ path ∈ rule.writes, path ∉ other.reads ∧ path ∉ other.writes))

end Rule

private theorem bind_congr_ok {α β : Type} {x : Except Failure α} {f g : α → Except Failure β}
    (h : ∀ a, x = .ok a → f a = g a) : x >>= f = x >>= g := by
  cases x with
  | error failure => rfl
  | ok a => exact h a rfl

theorem Deed.eq_of_requireValue {a : Action} {v : Value} (h : a.requireValue = .ok v) :
    v = a.value := by
  unfold Action.requireValue at h
  split at h
  · cases h
  · cases h
  · cases h
    rfl

section Congruence

variable {on : Path → Prop} {u w : World} {a : Action}

theorem covers_target (hon : ∀ path ∈ a.targetPath, on path) :
    World.Covers on a.target.plainText := by
  intro path hpath
  apply hon
  unfold Action.targetPath
  rw [hpath]
  exact List.mem_singleton_self path

theorem current_congr (hagree : World.Agrees on u w) {text : String} (hon : World.Covers on text) :
    u.current text = w.current text :=
  congrArg (Except.map Value.marked) (hagree.peek hon)

/-- What an action amounts to depends on its footprint only, neither on the rule that takes
it nor on the others. -/
theorem ofAction_congr (hagree : World.Agrees on u w) (hkind : a.kind.keepsToCells = true)
    (hreads : ∀ path ∈ a.reads, on path) (hwrites : ∀ path ∈ a.writes, on path)
    (known known' : String → Bool) (rule rule' : Rule) :
    Deed.ofAction known rule a u = Deed.ofAction known' rule' a w := by
  have hcurrent : (∀ path ∈ a.targetPath, on path) → ∀ text, a.requireText "target" = .ok text →
      u.current text = w.current text := by
    rintro hon text htext
    rw [Deed.eq_of_requireText htext]
    exact current_congr hagree (covers_target hon)
  have hresolve : ∀ v : Value, (∀ path ∈ v.reads, on path) → u.resolve v = w.resolve v :=
    fun v hon => resolve_congr hagree.readAlike hon
  unfold Action.reads at hreads
  unfold Action.writes at hwrites
  unfold Deed.ofAction
  cases hname : a.kind with
  | triggerRule | spawnEvent =>
    rw [hname] at hkind
    cases hkind
  | set =>
    simp only [hname] at hreads hwrites ⊢
    refine bind_congr_ok fun target htarget => bind_congr_ok fun raw hraw => ?_
    rw [hcurrent hwrites target htarget, Deed.eq_of_requireValue hraw, hresolve a.value hreads]
  | add =>
    simp only [hname] at hreads hwrites ⊢
    refine bind_congr_ok fun target htarget => bind_congr_ok fun raw hraw => ?_
    rw [hcurrent hwrites target htarget, Deed.eq_of_requireValue hraw,
      hresolve a.value fun path hpath => hreads path (List.mem_append_right _ hpath)]
  | recommend =>
    simp only [hname] at hreads hwrites ⊢
    refine bind_congr_ok fun target htarget => bind_congr_ok fun raw hraw => ?_
    rw [hcurrent (fun path hpath => hreads path (List.mem_append_left _ hpath)) target htarget,
      Deed.eq_of_requireValue hraw,
      hresolve a.value fun path hpath => hreads path (List.mem_append_right _ hpath)]
  | clamp =>
    simp only [hname] at hreads hwrites ⊢
    refine bind_congr_ok fun target htarget => bind_congr_ok fun lowRaw hlow => ?_
    have hlowRaw : lowRaw = a.minValue := Deed.eq_of_require hlow
    rw [hcurrent hwrites target htarget, hlowRaw, hresolve _ fun path hpath =>
      hreads path (List.mem_append_right _ (List.mem_append_left _ hpath))]
    refine bind_congr_ok fun lowValue _ => bind_congr_ok fun low _ =>
      bind_congr_ok fun highRaw hhigh => ?_
    have hhighRaw : highRaw = a.maxValue := Deed.eq_of_require hhigh
    rw [hhighRaw, hresolve _ fun path hpath =>
      hreads path (List.mem_append_right _ (List.mem_append_right _ hpath))]
  | log =>
    simp only [hname] at hreads hwrites ⊢
    refine bind_congr_ok fun message _ => bind_congr_ok fun level _ => ?_
    rw [hagree.read (covers_target hreads)]

end Congruence

namespace World

variable {on : Path → Prop} {u w w' : World} {a : Action} {known known' : String → Bool}
  {rule rule' : Rule}

/-- What an action makes of a world when no other rule has written its cell: nothing where
it fails. -/
def act (w : World) (known : String → Bool) (rule : Rule) (a : Action) : Option World :=
  match Deed.ofAction known rule a w with
  | .error _ => none
  | .ok (.write target value _ _ _) => (w.write target value).toOption
  | .ok _ => some w

def actAll (w : World) (known : String → Bool) (rule : Rule) : List Action → World
  | [] => w
  | a :: rest =>
    match w.act known rule a with
    | none => w
    | some w' => w'.actAll known rule rest

theorem act_congr (hagree : Agrees on u w) (hkind : a.kind.keepsToCells = true)
    (hspares : a.SparesBase) (hreads : ∀ path ∈ a.reads, on path)
    (hwrites : ∀ path ∈ a.writes, on path) :
    Option.Rel (Agrees on) (u.act known rule a) (w.act known' rule' a) := by
  unfold act
  rw [ofAction_congr hagree hkind hreads hwrites known known' rule rule']
  cases hdeed : Deed.ofAction known' rule' a w with
  | error failure => exact .none
  | ok deed =>
    cases Deed.of_ofAction hdeed with
    | write hmutating =>
      refine hagree.write (covers_target fun path hpath => hwrites path ?_)
        (hspares.target hmutating) _
      rwa [Action.writes, if_pos hmutating]
    | recommend | trigger | spawn | log => exact .some hagree

/-- An action changes nothing but the cell that it writes. -/
theorem agrees_of_act (hspares : a.SparesBase) (h : w.act known rule a = some w') :
    Agrees (· ∉ a.writes) w' w := by
  unfold act at h
  cases hdeed : Deed.ofAction known rule a w with
  | error failure =>
    rw [hdeed] at h
    cases h
  | ok deed =>
    rw [hdeed] at h
    cases Deed.of_ofAction hdeed with
    | @write value _ _ _ hmutating =>
      dsimp only at h
      cases hwrite : w.write a.target.plainText value with
      | error failure =>
        rw [hwrite] at h
        cases h
      | ok world =>
        rw [hwrite] at h
        cases h
        refine (agrees_of_write hwrite (hspares.target hmutating)).mono
          fun path hpath hparse => hpath ?_
        rw [Action.writes, if_pos hmutating, Action.targetPath, hparse]
        exact List.mem_singleton_self path
    | recommend | trigger | spawn | log =>
      cases h
      exact .refl _ _

theorem actAll_congr {actions : List Action} (hagree : Agrees on u w)
    (hkinds : ∀ a ∈ actions, a.kind.keepsToCells = true) (hspares : ∀ a ∈ actions, a.SparesBase)
    (hreads : ∀ a ∈ actions, ∀ path ∈ a.reads, on path)
    (hwrites : ∀ a ∈ actions, ∀ path ∈ a.writes, on path) :
    Agrees on (u.actAll known rule actions) (w.actAll known' rule' actions) := by
  induction actions generalizing u w with
  | nil => exact hagree
  | cons a rest ih =>
    have hstep : Option.Rel (Agrees on) (u.act known rule a) (w.act known' rule' a) :=
      act_congr hagree (hkinds a List.mem_cons_self) (hspares a List.mem_cons_self)
        (hreads a List.mem_cons_self) (hwrites a List.mem_cons_self)
    unfold actAll
    generalize u.act known rule a = x at hstep ⊢
    generalize w.act known' rule' a = y at hstep ⊢
    cases hstep with
    | none => exact hagree
    | some hnext =>
      exact ih hnext (fun b hb => hkinds b (List.mem_cons_of_mem _ hb))
        (fun b hb => hspares b (List.mem_cons_of_mem _ hb))
        (fun b hb => hreads b (List.mem_cons_of_mem _ hb))
        fun b hb => hwrites b (List.mem_cons_of_mem _ hb)

theorem agrees_actAll (w : World) (known : String → Bool) (rule : Rule) {actions : List Action}
    (hspares : ∀ a ∈ actions, a.SparesBase) :
    Agrees (fun path => ∀ a ∈ actions, path ∉ a.writes) (w.actAll known rule actions) w := by
  induction actions generalizing w with
  | nil => exact .refl _ _
  | cons a rest ih =>
    unfold actAll
    cases hact : w.act known rule a with
    | none => exact .refl _ _
    | some w' =>
      refine ((ih w' fun b hb => hspares b (List.mem_cons_of_mem _ hb)).mono
        fun path hpath b hb => hpath b (List.mem_cons_of_mem _ hb)).trans ?_
      exact (agrees_of_act (hspares a List.mem_cons_self) hact).mono
        fun path hpath => hpath a List.mem_cons_self

end World

namespace Rule

variable {on : Path → Prop} {u w : World} {rule rule' : Rule} {known known' : String → Bool}

def fires (rule : Rule) (w : World) : Bool :=
  (evaluateConditions rule.conditions rule.junction w).triggered

def alone (rule : Rule) (known : String → Bool) (w : World) : World :=
  if rule.fires w then w.actAll known rule rule.actions else w

def unranked (rule : Rule) : Rule := { rule with priority := .absent }

theorem eq_of_unranked (h : rule'.unranked = rule.unranked) :
    ∃ priority, rule' = { rule with priority } := by
  obtain ⟨id, priority, conditions, logic, actions, template, metadata⟩ := rule
  obtain ⟨id', priority', conditions', logic', actions', template', metadata'⟩ := rule'
  cases h
  exact ⟨priority', rfl⟩

/-- Whether a rule fires depends on the paths that it reads only. -/
theorem fires_congr (hsame : rule'.unranked = rule.unranked) (hagree : World.Agrees on u w)
    (hreads : ∀ path ∈ rule.reads, on path) : rule'.fires u = rule.fires w := by
  obtain ⟨priority, rfl⟩ := eq_of_unranked hsame
  have hconditions : ∀ c ∈ rule.conditions, ∀ path ∈ c.reads, on path := fun c hc path hpath =>
    hreads path (List.mem_append_left _ (List.mem_flatMap.mpr ⟨c, hc, hpath⟩))
  exact congrArg ConditionsOutcome.triggered
    (evaluateConditions_congr hagree hconditions rule.junction)

/-- Whether a rule writes nothing but ordinary cells. -/
def Ordinary (rule : Rule) : Prop := ∀ a ∈ rule.actions, a.Ordinary

instance (rule : Rule) : Decidable rule.Ordinary :=
  inferInstanceAs (Decidable (∀ a ∈ rule.actions, a.Ordinary))

/-- Whether a rule leaves alone what records fall back on. -/
def SparesBase (rule : Rule) : Prop := ∀ a ∈ rule.actions, a.SparesBase

instance (rule : Rule) : Decidable rule.SparesBase :=
  inferInstanceAs (Decidable (∀ a ∈ rule.actions, a.SparesBase))

/-- What a rule does depends on its footprint only, and not on its priority. -/
theorem alone_congr (hsame : rule'.unranked = rule.unranked) (hagree : World.Agrees on u w)
    (hkinds : ∀ a ∈ rule.actions, a.kind.keepsToCells = true) (hspares : rule.SparesBase)
    (hreads : ∀ path ∈ rule.reads, on path) (hwrites : ∀ path ∈ rule.writes, on path) :
    World.Agrees on (rule'.alone known' u) (rule.alone known w) := by
  unfold alone
  rw [fires_congr hsame hagree hreads]
  obtain ⟨priority, rfl⟩ := eq_of_unranked hsame
  split
  · refine World.actAll_congr hagree hkinds hspares ?_ ?_
    · intro a ha path hpath
      exact hreads path (List.mem_append_right _ (List.mem_flatMap.mpr ⟨a, ha, hpath⟩))
    · intro a ha path hpath
      exact hwrites path (List.mem_flatMap.mpr ⟨a, ha, hpath⟩)
  · exact hagree

/-- A rule changes nothing but what it writes. -/
theorem agrees_alone {rule : Rule} (hspares : rule.SparesBase) (known : String → Bool)
    (w : World) : World.Agrees (· ∉ rule.writes) (rule.alone known w) w := by
  unfold alone
  split
  · refine (w.agrees_actAll known rule hspares).mono fun path hpath a ha hwrites => ?_
    exact hpath (List.mem_flatMap.mpr ⟨a, ha, hwrites⟩)
  · exact .refl _ _

end Rule

end Harbormaster
