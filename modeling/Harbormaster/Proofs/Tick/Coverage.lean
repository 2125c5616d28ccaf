import Harbormaster.Proofs.Arrangement.Permutation
import Harbormaster.Proofs.Engine.Calls
import Harbormaster.Proofs.Number.Rounding
import Harbormaster.Proofs.Tick.Turns

/-!
Every rule has exactly one turn in a tick, however rules trigger each other and
wherever a chain overflows. What carries the proof is that a rule that still
waits has its own place in the queue, which no rule asked for: an overflow drops
places that were asked for and never those.
-/

namespace Harbormaster

theorem perm_cons_eraseP {α : Type} {p : α → Bool} {items : List α} {item : α}
    (h : items.find? p = some item) : items.Perm (item :: items.eraseP p) := by
  obtain ⟨hp, former, later, rfl, hformer⟩ := List.find?_eq_some_iff_append.mp h
  rw [List.eraseP_append_right _ fun b hb => by simpa using hformer b hb,
    List.eraseP_cons_of_pos hp]
  exact List.perm_middle

namespace Tick

def Accounts (rules waiting : List Rule) (t : Tick) : Prop :=
  (t.evaluated ++ waiting.map (·.id)).Perm (rules.map (·.id))

theorem evaluated_noteIgnored (t : Tick) (entry : QueueEntry) :
    (t.noteIgnored entry).evaluated = t.evaluated := by
  rw [evaluated_eq, beginnings_noteIgnored, ← evaluated_eq]

/-- The turn of a rule adds this rule to those evaluated, whatever comes of it. -/
theorem evaluated_evaluateRule (r : TickRules) (waiting : List Rule) (entry : QueueEntry)
    (rule : Rule) (t : Tick) :
    (evaluateRule r waiting entry rule t).1.evaluated = t.evaluated ++ [rule.id] := by
  rw [evaluated_eq, beginnings_evaluateRule, List.map_append, ← evaluated_eq]
  rfl

section Turns

variable {r : TickRules} {rules waiting : List Rule} {entry : QueueEntry} {rule : Rule}
  {t : Tick} {rest : List QueueEntry}

theorem Accounts.turn (hrule : waiting.find? (·.id = entry.ruleId) = some rule)
    (h : Accounts rules waiting t) :
    Accounts rules (waiting.eraseP (·.id = entry.ruleId))
      (evaluateRule r (waiting.eraseP (·.id = entry.ruleId)) entry rule t).1 := by
  have hwaiting := (perm_cons_eraseP hrule).map (·.id)
  unfold Accounts
  rw [evaluated_evaluateRule, List.append_assoc]
  exact ((hwaiting.symm.append_left t.evaluated).trans h)

/-- A rule that waits has not been evaluated, since no id occurs twice. -/
theorem Accounts.not_evaluated (hdistinct : (rules.map (·.id)).Nodup)
    (h : Accounts rules waiting t) (hrule : rule ∈ waiting) : rule.id ∉ t.evaluated := by
  intro hevaluated
  have hdisjoint := List.disjoint_of_nodup_append (h.nodup_iff.mpr hdistinct)
  exact hdisjoint hevaluated (List.mem_map_of_mem hrule)

def HavePlaces (waiting : List Rule) (queue : List QueueEntry) : Prop :=
  ∀ rule ∈ waiting, QueueEntry.base rule ∈ queue

theorem HavePlaces.skip (hnone : waiting.find? (·.id = entry.ruleId) = none)
    (h : HavePlaces waiting (entry :: rest)) : HavePlaces waiting rest := by
  intro rule hrule
  rcases List.mem_cons.mp (h rule hrule) with rfl | hrest
  · have hother := List.find?_eq_none.mp hnone rule hrule
    simp [QueueEntry.base] at hother
  · exact hrest

/-- The places of the rules left over outlast a turn: the entry in front of the
queue belongs to the rule that has it, and no overflow drops them. -/
theorem HavePlaces.turn (hdistinct : (waiting.map (·.id)).Nodup)
    (hrule : waiting.find? (·.id = entry.ruleId) = some rule)
    (h : HavePlaces waiting (entry :: rest)) (t : Tick) (scheduled : List QueueEntry) :
    HavePlaces (waiting.eraseP (·.id = entry.ruleId)) (t.queueAfter scheduled rest) := by
  intro other hother
  have hperm := perm_cons_eraseP hrule
  have hnodup := (hperm.map (·.id)).nodup_iff.mp hdistinct
  have hne : other.id ≠ rule.id := by
    intro hid
    rw [List.map_cons, List.nodup_cons] at hnodup
    exact hnodup.1 (hid ▸ List.mem_map_of_mem hother)
  have hid : rule.id = entry.ruleId := by simpa using List.find?_some hrule
  -- the entry in front is the place of the rule that has the turn, not of another one
  have hplace : QueueEntry.base other ∈ rest := by
    rcases List.mem_cons.mp (h other (List.mem_of_mem_eraseP hother)) with hfront | hrest
    · exact absurd (congrArg QueueEntry.ruleId hfront) (hid ▸ hne)
    · exact hrest
  unfold queueAfter
  split
  · exact List.mem_filter.mpr ⟨hplace, rfl⟩
  · exact List.mem_append_right _ hplace

/-- When the queue has run out no rule is left waiting, and the rules that had
their turn are those of the set. -/
theorem drain_evaluated (hdistinct : (rules.map (·.id)).Nodup) (t : Tick)
    (hfresh : t.drafts = []) :
    (drain r rules (rules.map QueueEntry.base) t).evaluated.Perm (rules.map (·.id)) := by
  have hend : ∃ left, Accounts rules left (drain r rules (rules.map QueueEntry.base) t) ∧
      HavePlaces left [] := by
    refine drain_preserves (P := fun waiting queue t =>
      Accounts rules waiting t ∧ HavePlaces waiting queue) ?_ ?_ ?_
    · rintro waiting entry rest t hnone ⟨haccounts, hplaces⟩
      refine ⟨?_, hplaces.skip hnone⟩
      unfold Accounts
      rwa [evaluated_noteIgnored]
    · rintro waiting entry rest t rule hrule ⟨haccounts, hplaces⟩
      have hwaiting : (waiting.map (·.id)).Nodup :=
        (haccounts.nodup_iff.mpr hdistinct).of_append_right
      exact ⟨haccounts.turn hrule, hplaces.turn hwaiting hrule _ _⟩
    · constructor
      · simp [Accounts, evaluated, hfresh]
      · intro rule hrule
        exact List.mem_map_of_mem hrule
  -- a rule that is left would have its place in the empty queue
  obtain ⟨left, haccounts, hplaces⟩ := hend
  have hnone : left = [] := by
    apply List.eq_nil_iff_forall_not_mem.mpr
    intro rule hrule
    exact List.not_mem_nil (hplaces rule hrule)
  simpa [Accounts, hnone] using haccounts

/-- No turn changes which tick it is. -/
theorem drain_number (queue : List QueueEntry) (t : Tick) :
    (drain r waiting queue t).number = t.number := by
  have hend : ∃ left : List Rule, (drain r waiting queue t).number = t.number := by
    refine drain_preserves (P := fun _ _ t' => t'.number = t.number) ?_ ?_ rfl
    · intro _ entry _ t' _ hbefore
      obtain ⟨_, _, heq⟩ := t'.noteIgnored_annotates entry
      rw [heq]
      exact hbefore
    · intro left entry _ t' rule _ hbefore
      refine evaluateRule_preserves (P := fun t' _ => t'.number = t.number) ?_ ?_
      · intro _ _ _ _
        exact hbefore
      · intro action _ t₁ _ t₂ _ hfirst hact
        rw [hact.number, hfirst]
  obtain ⟨_, hnumber⟩ := hend
  exact hnumber

end Turns

end Tick

namespace Engine

variable {initial : World} {rules : RuleSet} {options : EngineOptions} {e : Engine}
  {notice : Notice}

/-- The rules that have their turn in a tick are those of the rule set, whatever
has been asked of the engine before. -/
theorem evaluated_runTick (hnew : new initial rules options = .ok (e, notice))
    (calls : List Call) :
    (e.after calls).runTick.1.evaluated.Perm (rules.rules.map (·.id)) := by
  have hturns : (e.after calls).runTick.1.evaluated.Perm ((e.after calls).rules.map (·.id)) :=
    Tick.drain_evaluated (ids_after hnew calls) _ rfl
  exact hturns.trans ((perm_rules_after hnew calls).map _)

/-- The tick before any other is committed: its number is the time of the world,
which the history has kept as it was. -/
theorem first_tick_commits (hnew : new initial rules options = .ok (e, notice))
    {inputs : List Input} (hinputs : ∀ input ∈ inputs, input.stored.isNameable = true) :
    ∃ s, (e.after (inputs.map .submit)).tick.snapshot = .ok s := by
  obtain ⟨-, -, hworld, hstore, -⟩ := of_new hnew
  have hnameable : (e.after (inputs.map .submit)).Nameable := by
    refine nameable_after (nameable_of_new hnew) fun c hc input hinput => ?_
    obtain ⟨given, hgiven, rfl⟩ := List.mem_map.mp hc
    obtain rfl : given = input := Option.some.inj hinput
    exact hinputs given hgiven
  obtain ⟨n, htime, hfinite⟩ := World.time_of_fault? hworld
  have hkept : (e.after (inputs.map .submit)).store = ⟨initial.stored, []⟩ := by
    rw [store_after_submit, hstore]
  have hstored : (Value.number n).stored = .number n := by
    simp [Value.stored, hfinite]
  have hnumber : (e.after (inputs.map .submit)).runTick.1.number = n := by
    have hbegun : (e.after (inputs.map .submit)).runTick.1.number =
        (e.after (inputs.map .submit)).state.stored.time := Tick.drain_number _ _
    rw [hbegun]
    simp [state, hkept, Store.current, World.time, World.stored, htime, hstored, Value.number?]
  have hnext : (e.after (inputs.map .submit)).store.nextTick = n := by
    have htime' : initial.stored.time = n := by
      simp [World.time, World.stored, htime, hstored, Value.number?]
    rw [hkept, Store.nextTick, htime']
    exact Number.zero_add n
  refine tick_commits hnameable ?_
  rw [hnumber, hnext]
  apply Number.eq_self
  cases n with
  | finite => rfl
  | infinite => rfl
  | notANumber => cases hfinite

/-- Also where no inputs wait. -/
theorem fresh_tick_commits (hnew : new initial rules options = .ok (e, notice)) :
    ∃ s, e.tick.snapshot = .ok s := by
  have hnone : ∀ input ∈ ([] : List Input), input.stored.isNameable = true :=
    fun _ hinput => nomatch hinput
  exact first_tick_commits hnew hnone

/-- Every tick works off its queue and gives every rule of the set its turn exactly once, as its
snapshot tells. The rules may ask for each other in circles, chains may overflow and actions
may fail; nothing is asked of the world but that a history may begin with it, and of the inputs
but that reports can name them. Whatever has been asked of the engine before, a tick that is
committed does the same. -/
theorem tick_explains_every_rule_once {depth : Nat}
    (hdistinct : (rules.rules.map (·.id)).Nodup)
    (hdepth : chainDepth options.maxChainDepth = .ok depth)
    (hworld : initial.fault? = none) :
    ∃ e notice, new initial rules options = .ok (e, notice) ∧
      (∀ calls, (e.after calls).runTick.1.evaluated.Perm (rules.rules.map (·.id))) ∧
      (∀ inputs : List Input, (∀ input ∈ inputs, input.stored.isNameable = true) →
        ∃ s, (e.after (inputs.map .submit)).tick.snapshot = .ok s ∧
        (s.record.explanations.map (·.ruleId)).Perm (rules.rules.map (·.id))) ∧
      ∀ calls s, (e.after calls).tick.snapshot = .ok s →
        (s.record.explanations.map (·.ruleId)).Perm (rules.rules.map (·.id)) := by
  obtain ⟨e, notice, hnew⟩ := new_succeeds hdepth hdistinct hworld
  have hcommitted : ∀ calls s, (e.after calls).tick.snapshot = .ok s →
      (s.record.explanations.map (·.ruleId)).Perm (rules.rules.map (·.id)) := by
    intro calls s hs
    have hids : s.record.explanations.map (·.ruleId) =
        (e.after calls).runTick.1.evaluated := by
      rw [(snapshot_of_tick hs).1]
      simp [reportOf, TickReport.stored, Explanation.stored, Draft.build, Tick.evaluated,
        Function.comp_def]
    rw [hids]
    exact evaluated_runTick hnew calls
  refine ⟨e, notice, hnew, evaluated_runTick hnew, ?_, hcommitted⟩
  intro inputs hinputs
  obtain ⟨s, hs⟩ := first_tick_commits hnew hinputs
  exact ⟨s, hs, hcommitted _ s hs⟩

def asking (id : String) (targets : List String) : Rule :=
  { id, priority := 1, conditions := [], logic := "AND"
    actions := targets.map fun target => ⟨.triggerRule, .ofList [("ruleId", .text target)]⟩
    template := "", metadata := ∅ }

def circle : RuleSet :=
  ⟨[asking "ping" ["ping", "pong"], asking "pong" ["ping", "pong"]], .standard⟩

/-- Also where the first rule that is asked for overflows the chain. -/
theorem tick_explains_circle :
    ∃ e notice, new default circle { EngineOptions.standard with maxChainDepth := 0 } =
        .ok (e, notice) ∧
      ∃ s, e.tick.snapshot = .ok s ∧
        (s.record.explanations.map (·.ruleId)).Perm ["ping", "pong"] := by
  obtain ⟨e, notice, hnew, -, hfirst, -⟩ := @tick_explains_every_rule_once default circle
    { EngineOptions.standard with maxChainDepth := 0 } 0 (by decide) rfl rfl
  exact ⟨e, notice, hnew, hfirst [] fun _ hnone => nomatch hnone⟩

end Engine

end Harbormaster
