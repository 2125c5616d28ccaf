import Harbormaster.Engine.Basic
import Harbormaster.Proofs.Arrangement.Permutation
import Harbormaster.Proofs.History.Numbering

/-!
Engines in use: the calls that can be made on an engine between its ticks, one
after another. An engine that was set up keeps its rules, its policy and its
chain depth through every call; only its history, its events and the inputs that
wait change. What a tick commits is taken apart here as well. A tick is not committed
if reports cannot name one of the inputs that wait, nor once ticks are counted beyond
the whole numbers that are exact.
-/

namespace Harbormaster.Engine

inductive Call where
  | submit (input : Input)
  | submitWrite (path value : Value)
  | consume (eventType : String)
  | tick

/-- The engine after a call; a tick that cannot be committed counts as one. -/
def call (e : Engine) : Call → Engine
  | .submit input => e.submit input
  | .submitWrite path value => e.submitWrite path value
  | .consume eventType => (e.consume eventType).2.1
  | .tick => e.tick.engine

def after (e : Engine) (calls : List Call) : Engine := calls.foldl call e

def Call.input? : Call → Option Input
  | .submit input => some input
  | .submitWrite path value => some (.write path value)
  | .consume _ | .tick => none

/-- The inputs that wait after a call where others waited before it. -/
def Call.waiting (inputs : List Input) : Call → List Input
  | .tick => []
  | c => inputs ++ c.input?.toList.map Input.stored

/-- The inputs that were handed in since the last tick. -/
def waiting (calls : List Call) : List Input := calls.foldl Call.waiting []

/-- Whether reports can name the input that a call hands in. -/
def Call.Nameable (c : Call) : Prop := ∀ input ∈ c.input?, input.stored.isNameable = true

instance (c : Call) : Decidable c.Nameable :=
  inferInstanceAs (Decidable (∀ input ∈ c.input?, input.stored.isNameable = true))

structure SameSetup (e f : Engine) : Prop where
  rules : f.rules = e.rules
  maxChainDepth : f.maxChainDepth = e.maxChainDepth
  policy : f.policy = e.policy
  translator : f.translator = e.translator

/-- Whether reports can name all inputs that wait. -/
def Nameable (e : Engine) : Prop := ∀ input ∈ e.pending, input.isNameable = true

instance (e : Engine) : Decidable e.Nameable :=
  inferInstanceAs (Decidable (∀ input ∈ e.pending, input.isNameable = true))

theorem tick_of_nameable {e : Engine} (h : e.Nameable) : e.tick = e.completeTick :=
  if_pos (List.all_eq_true.mpr h)

theorem tick_of_not_nameable {e : Engine} (h : ¬e.Nameable) : e.tick = e.abandonTick :=
  if_neg fun hall => h (List.all_eq_true.mp hall)

theorem sameSetup_tick (e : Engine) : SameSetup e e.tick.engine := by
  by_cases hnameable : e.Nameable
  · rw [tick_of_nameable hnameable]
    unfold completeTick
    dsimp only
    split
    · exact ⟨rfl, rfl, rfl, rfl⟩
    · exact ⟨rfl, rfl, rfl, rfl⟩
  · rw [tick_of_not_nameable hnameable]
    exact ⟨rfl, rfl, rfl, rfl⟩

theorem sameSetup_call (e : Engine) (c : Call) : SameSetup e (e.call c) := by
  cases c with
  | submit | submitWrite | consume => exact ⟨rfl, rfl, rfl, rfl⟩
  | tick => exact sameSetup_tick e

theorem sameSetup_after (e : Engine) (calls : List Call) : SameSetup e (e.after calls) := by
  induction calls generalizing e with
  | nil => exact ⟨rfl, rfl, rfl, rfl⟩
  | cons c rest ih =>
    have hfirst := sameSetup_call e c
    have hrest := ih (e.call c)
    exact ⟨hrest.rules.trans hfirst.rules, hrest.maxChainDepth.trans hfirst.maxChainDepth,
      hrest.policy.trans hfirst.policy, hrest.translator.trans hfirst.translator⟩

/-- After a tick no inputs wait, whatever came of it. -/
theorem pending_tick (e : Engine) : e.tick.engine.pending = [] := by
  by_cases hnameable : e.Nameable
  · rw [tick_of_nameable hnameable]
    unfold completeTick
    dsimp only
    split
    · rfl
    · rfl
  · rw [tick_of_not_nameable hnameable]
    rfl

theorem pending_call (e : Engine) (c : Call) : (e.call c).pending = c.waiting e.pending := by
  cases c with
  | submit | submitWrite => rfl
  | consume => exact (List.append_nil _).symm
  | tick => exact pending_tick e

theorem pending_after {e : Engine} (hnone : e.pending = []) (calls : List Call) :
    (e.after calls).pending = waiting calls := by
  unfold after waiting
  rw [← hnone]
  clear hnone
  induction calls generalizing e with
  | nil => rfl
  | cons c rest ih =>
    rw [List.foldl_cons, List.foldl_cons, ih, pending_call]

theorem nameable_call {e : Engine} {c : Call} (h : e.Nameable) (hc : c.Nameable) :
    (e.call c).Nameable := by
  intro input hinput
  rw [pending_call] at hinput
  have hwaiting : ∀ given ∈ c.input?, input ∈ e.pending ++ [given.stored] →
      input.isNameable = true := by
    intro given hgiven hmember
    rcases List.mem_append.mp hmember with hformer | hnow
    · exact h input hformer
    · exact List.mem_singleton.mp hnow ▸ hc given hgiven
  cases c with
  | submit | submitWrite => exact hwaiting _ rfl hinput
  | consume => exact h input ((List.append_nil e.pending).symm ▸ hinput)
  | tick => cases hinput

theorem nameable_after {e : Engine} {calls : List Call} (h : e.Nameable)
    (hcalls : ∀ c ∈ calls, c.Nameable) : (e.after calls).Nameable := by
  induction calls generalizing e with
  | nil => exact h
  | cons c rest ih =>
    obtain ⟨hfirst, hrest⟩ := List.forall_mem_cons.mp hcalls
    exact ih (nameable_call h hfirst) hrest

/-- The duplicates of a set of rules are found exactly when there are some. -/
theorem duplicateId?_eq_none_iff (seen : List String) (rules : List Rule) :
    duplicateId? seen rules = none ↔
      (rules.map (·.id)).Nodup ∧ ∀ rule ∈ rules, rule.id ∉ seen := by
  induction rules generalizing seen with
  | nil => simp [duplicateId?]
  | cons rule rest ih =>
    unfold duplicateId?
    by_cases hseen : rule.id ∈ seen
    · simp [hseen]
    · simp only [List.contains_iff_mem, hseen, if_false, ih, List.map_cons, List.nodup_cons,
        List.mem_cons, List.mem_map]
      grind

section New

variable {initial : World} {rules : RuleSet} {options : EngineOptions} {e : Engine}
  {notice : Notice}

/-- What an engine is made of when it has been set up: its rules in their order,
and a history that begins with the world as a document holds it. -/
theorem of_new (h : new initial rules options = .ok (e, notice)) :
    e.rules = Rule.byPriority rules.rules ∧ (rules.rules.map (·.id)).Nodup ∧
      initial.fault? = none ∧ e.store = ⟨initial.stored, []⟩ ∧ e.pending = [] := by
  simp only [new, bind, Except.bind] at h
  split at h
  · cases h
  · split at h
    · cases h
    · rename_i hids
      split at h
      · cases h
      · rename_i hstore
        obtain ⟨hfault, rfl⟩ := Store.of_ofWorld hstore
        cases h
        exact ⟨rfl, ((duplicateId?_eq_none_iff [] rules.rules).mp hids).1, hfault, rfl, rfl⟩

/-- No inputs wait when an engine has been set up, and so none that reports cannot name. -/
theorem nameable_of_new (h : new initial rules options = .ok (e, notice)) : e.Nameable := by
  obtain ⟨-, -, -, -, hnone⟩ := of_new h
  intro input hinput
  rw [hnone] at hinput
  cases hinput

theorem state_of_new (h : new initial rules options = .ok (e, notice)) :
    e.state = initial.stored := by
  obtain ⟨-, -, -, hstore, -⟩ := of_new h
  rw [state, hstore]
  rfl

/-- Through every call an engine has the rules that it was given, in some order. -/
theorem perm_rules_after (h : new initial rules options = .ok (e, notice)) (calls : List Call) :
    (e.after calls).rules.Perm rules.rules := by
  rw [(sameSetup_after e calls).rules, (of_new h).1]
  exact Rule.perm_byPriority rules.rules

/-- The rules of an engine have ids of their own throughout. -/
theorem ids_after (h : new initial rules options = .ok (e, notice)) (calls : List Call) :
    ((e.after calls).rules.map (·.id)).Nodup :=
  ((perm_rules_after h calls).map _).nodup_iff.mpr (of_new h).2.1

end New

/-- Nothing but a chain depth that is none, two rules of one id or a faulty world
keeps an engine from being set up. -/
theorem new_succeeds {initial : World} {rules : RuleSet} {options : EngineOptions} {depth : Nat}
    (hdepth : chainDepth options.maxChainDepth = .ok depth)
    (hdistinct : (rules.rules.map (·.id)).Nodup) (hworld : initial.fault? = none) :
    ∃ e notice, new initial rules options = .ok (e, notice) := by
  have hids : duplicateId? [] rules.rules = none := by
    rw [duplicateId?_eq_none_iff]
    exact ⟨hdistinct, fun _ _ => List.not_mem_nil⟩
  simp [new, hdepth, hids, Store.ofWorld, hworld, bind, Except.bind]

/-- Over the same world an engine can be set up with other rules as well, and is the same but
for these. -/
theorem new_of_rules {initial : World} {rules rules' : RuleSet} {options : EngineOptions}
    {e : Engine} {notice : Notice} (h : new initial rules options = .ok (e, notice))
    (hdistinct : (rules'.rules.map (·.id)).Nodup) (hpolicy : rules'.policy = rules.policy) :
    ∃ notice', new initial rules' options =
      .ok ({ e with rules := Rule.byPriority rules'.rules }, notice') := by
  have hids : duplicateId? [] rules'.rules = none := by
    rw [duplicateId?_eq_none_iff]
    exact ⟨hdistinct, fun _ _ => List.not_mem_nil⟩
  simp only [new, bind, Except.bind] at h ⊢
  split at h
  · cases h
  · split at h
    · cases h
    · split at h
      · cases h
      · cases h
        rw [hids, hpolicy]
        exact ⟨_, rfl⟩

theorem store_after_submit (e : Engine) (inputs : List Input) :
    (e.after (inputs.map .submit)).store = e.store := by
  induction inputs generalizing e with
  | nil => rfl
  | cons input rest ih => exact ih (e.submit input)

/-- Whether a tick is committed, and what, can be told from its run and its number. -/
theorem snapshot_eq {e : Engine} (hnameable : e.Nameable) :
    e.tick.snapshot =
      if Value.sameItem (.number e.runTick.1.number) (.number e.store.nextTick) then
        .ok ⟨e.store.nextTick, (reportOf e.runTick.1 e.runTick.2).stored,
          (finalWorld e.runTick.1).stored⟩
      else .error (.store (.unexpectedTick e.store.nextTick (.number e.runTick.1.number))) := by
  rw [tick_of_nameable hnameable]
  unfold completeTick Store.commit
  dsimp only
  by_cases hnumber : Value.sameItem (.number e.runTick.1.number) (.number e.store.nextTick) = true
  · simp only [hnumber, if_true]
    rfl
  · simp only [hnumber, Bool.false_eq_true, if_false]

/-- A tick that is committed has named all its inputs. -/
theorem nameable_of_tick {e : Engine} {s : Snapshot} (h : e.tick.snapshot = .ok s) :
    e.Nameable := by
  by_contra hnameable
  rw [tick_of_not_nameable hnameable] at h
  cases h

/-- What a committed tick holds: its report and its world, as documents hold them. -/
theorem snapshot_of_tick {e : Engine} {s : Snapshot} (h : e.tick.snapshot = .ok s) :
    s.record = (reportOf e.runTick.1 e.runTick.2).stored ∧
      s.state = (finalWorld e.runTick.1).stored := by
  rw [tick_of_nameable (nameable_of_tick h)] at h
  unfold completeTick at h
  dsimp only at h
  split at h
  · cases h
  · rename_i hcommit
    obtain ⟨rfl, -⟩ := Store.of_commit hcommit
    cases h
    exact ⟨rfl, rfl⟩

/-- A tick with inputs that can be named is committed when its number is the one that its
history expects. -/
theorem tick_commits {e : Engine} (hnameable : e.Nameable)
    (h : e.runTick.1.number.eq e.store.nextTick = true) : ∃ s, e.tick.snapshot = .ok s := by
  have hnext : Value.sameItem (.number e.runTick.1.number) (.number e.store.nextTick) = true := h
  rw [snapshot_eq hnameable, if_pos hnext]
  exact ⟨_, rfl⟩

end Harbormaster.Engine
