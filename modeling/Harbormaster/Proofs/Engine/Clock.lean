import Harbormaster.Proofs.Tick.Coverage

/-!
The clock of an engine. The number of a tick is read off the world, the number that
the history expects is counted from the length of the history; they agree because
every tick that is committed moves both by one. Beyond `2 ^ 53` neither moves by one
any more, and what happens there is not treated here.
-/

namespace Harbormaster

namespace Engine

def Call.isTick : Call → Bool
  | .tick => true
  | _ => false

/-- How many of the calls are ticks. -/
def ticks (calls : List Call) : Nat := calls.countP Call.isTick

theorem ticks_cons (c : Call) (rest : List Call) : ticks (c :: rest) = ticks [c] + ticks rest :=
  @List.countP_append _ _ [c] rest

/-- What is left of an engine by a tick that is committed. -/
theorem engine_of_commit {e : Engine} {s : Snapshot} (h : e.tick.snapshot = .ok s) :
    s.tick = e.store.nextTick ∧
      e.tick.engine =
        { e with
          bus := e.runTick.1.stage.bus
          pending := []
          store := { e.store with commits := e.store.commits ++ [s] } } := by
  have hnameable := nameable_of_tick h
  rw [tick_of_nameable hnameable] at h ⊢
  unfold completeTick at h ⊢
  dsimp only at h ⊢
  split at h
  · cases h
  · rename_i hcommit
    obtain ⟨rfl, rfl⟩ := Store.of_commit hcommit
    cases h
    exact ⟨rfl, rfl⟩

theorem history_of_commit {e : Engine} {s : Snapshot} (h : e.tick.snapshot = .ok s) :
    e.tick.engine.history = e.history ++ [s] := by
  rw [(engine_of_commit h).2]
  rfl

theorem state_of_commit {e : Engine} {s : Snapshot} (h : e.tick.snapshot = .ok s) :
    e.tick.engine.state = s.state := by
  rw [(engine_of_commit h).2]
  simp [state, Store.current]

theorem engine_of_completed {e : Engine} {failure : Failure} (hnameable : e.Nameable)
    (h : e.tick.snapshot = .error failure) :
    e.tick.engine = { e with bus := e.runTick.1.stage.bus, pending := [] } := by
  rw [tick_of_nameable hnameable] at h ⊢
  unfold completeTick at h ⊢
  dsimp only at h ⊢
  split at h
  · rfl
  · cases h

/-- A tick that cannot be committed leaves the history alone. Its events are gone as well if
it has not come to them. -/
theorem engine_of_refusal {e : Engine} {failure : Failure}
    (h : e.tick.snapshot = .error failure) :
    ∃ bus, e.tick.engine = { e with bus, pending := [] } ∧
      (bus = e.runTick.1.stage.bus ∨ bus = e.bus) := by
  by_cases hnameable : e.Nameable
  · exact ⟨_, engine_of_completed hnameable h, .inl rfl⟩
  · rw [tick_of_not_nameable hnameable]
    exact ⟨_, rfl, .inr rfl⟩

/-- Nothing that is committed changes afterwards. -/
theorem history_call (e : Engine) (c : Call) : e.history <+: (e.call c).history := by
  cases c with
  | submit | submitWrite | consume => exact List.prefix_rfl
  | tick =>
    change e.history <+: e.tick.engine.history
    cases hs : e.tick.snapshot with
    | ok s =>
      rw [history_of_commit hs]
      exact List.prefix_append _ _
    | error failure =>
      obtain ⟨bus, hengine, -⟩ := engine_of_refusal hs
      rw [hengine]
      exact List.prefix_rfl

theorem history_after (e : Engine) (calls : List Call) : e.history <+: (e.after calls).history := by
  induction calls generalizing e with
  | nil => exact List.prefix_rfl
  | cons c rest ih => exact (history_call e c).trans (ih (e.call c))

/-- An engine whose history began at `start` and whose world has counted on with it. -/
structure OnTime (start : Nat) (e : Engine) : Prop where
  begun : e.store.initial.timeStep = .number (.ofNat start)
  current : e.state.timeStep = .number (.ofNat (start + e.history.length))

variable {e : Engine} {start : Nat}

/-- The number that a tick starts with is the one that its history expects. -/
theorem OnTime.number (h : OnTime start e) (hlimit : start + e.history.length ≤ Number.exactLimit) :
    e.runTick.1.number = .ofNat (start + e.history.length) ∧
      e.store.nextTick = .ofNat (start + e.history.length) := by
  constructor
  · have hbegun : e.runTick.1.number = e.state.stored.time := Tick.drain_number _ _
    rw [hbegun, World.time_of_timeStep (World.timeStep_stored hlimit h.current)]
  · have hcount : Number.ofNat e.history.length + .ofNat start =
        .ofNat (start + e.history.length) := by
      rw [Number.ofNat_add (by omega) (by omega), Nat.add_comm]
    rw [Store.nextTick, World.time_of_timeStep h.begun]
    exact hcount

/-- A tick below the limit is committed under its number, if its inputs can be named, and time
goes on by one. -/
theorem OnTime.tick (h : OnTime start e) (hnameable : e.Nameable)
    (hlimit : start + e.history.length < Number.exactLimit) :
    ∃ s, e.tick.snapshot = .ok s ∧ s.tick = .ofNat (start + e.history.length) ∧
      s.state.timeStep = .number (.ofNat (start + e.history.length + 1)) ∧
      e.tick.engine.history = e.history ++ [s] ∧ e.tick.engine.state = s.state ∧
      OnTime start e.tick.engine := by
  obtain ⟨hnumber, hnext⟩ := h.number hlimit.le
  obtain ⟨s, hs⟩ : ∃ s, e.tick.snapshot = .ok s := by
    refine tick_commits hnameable ?_
    rw [hnumber, hnext]
    apply Number.eq_self
    rw [Number.ofNat_eq_finite hlimit.le]
    rfl
  obtain ⟨htick, hengine⟩ := engine_of_commit hs
  have hsum : Number.ofNat (start + e.history.length) + 1 =
      .ofNat (start + e.history.length + 1) := Number.ofNat_add hlimit.le (by decide)
  have htime : s.state.timeStep = .number (.ofNat (start + e.history.length + 1)) := by
    rw [(snapshot_of_tick hs).2]
    apply World.timeStep_stored hlimit
    rw [finalWorld, hnumber, hsum]
  have hhistory := history_of_commit hs
  have hstate := state_of_commit hs
  refine ⟨s, hs, htick.trans hnext, htime, hhistory, hstate, ?_, ?_⟩
  · rw [hengine]
    exact h.begun
  · rw [hstate, hhistory, htime, List.length_append, List.length_singleton, Nat.add_assoc]

/-- No call makes the history grow by more than the ticks in it. -/
theorem history_length_call (e : Engine) (c : Call) :
    (e.call c).history.length ≤ e.history.length + ticks [c] := by
  cases c with
  | submit | submitWrite | consume => exact Nat.le_refl _
  | tick =>
    change e.tick.engine.history.length ≤ e.history.length + 1
    cases hs : e.tick.snapshot with
    | ok s =>
      rw [history_of_commit hs, List.length_append]
      rfl
    | error failure =>
      obtain ⟨bus, hengine, -⟩ := engine_of_refusal hs
      rw [hengine]
      exact Nat.le_succ _

theorem OnTime.call (h : OnTime start e) {c : Call}
    (hlimit : start + e.history.length + ticks [c] ≤ Number.exactLimit) :
    OnTime start (e.call c) := by
  cases c with
  | submit | submitWrite | consume => exact ⟨h.begun, h.current⟩
  | tick =>
    by_cases hnameable : e.Nameable
    · obtain ⟨_, -, -, -, -, -, honTime⟩ := h.tick hnameable (Nat.lt_of_succ_le hlimit)
      exact honTime
    · change OnTime start e.tick.engine
      rw [tick_of_not_nameable hnameable]
      exact ⟨h.begun, h.current⟩

/-- As long as ticks are counted exactly the clock and the history agree. -/
theorem OnTime.after (h : OnTime start e) (calls : List Call)
    (hlimit : start + e.history.length + ticks calls ≤ Number.exactLimit) :
    OnTime start (e.after calls) ∧
      (e.after calls).history.length ≤ e.history.length + ticks calls := by
  induction calls generalizing e with
  | nil => exact ⟨h, Nat.le_refl _⟩
  | cons c rest ih =>
    have hticks := ticks_cons c rest
    have hlength := history_length_call e c
    obtain ⟨hafter, hhistory⟩ := ih (h.call (c := c) (by omega)) (by omega)
    exact ⟨hafter, by rw [after, List.foldl_cons] at *; omega⟩

/-- If inputs can be named besides, all ticks are in the history. -/
theorem OnTime.length_after (h : OnTime start e) (hnameable : e.Nameable) (calls : List Call)
    (hcalls : ∀ c ∈ calls, c.Nameable)
    (hlimit : start + e.history.length + ticks calls ≤ Number.exactLimit) :
    (e.after calls).history.length = e.history.length + ticks calls := by
  induction calls generalizing e with
  | nil => rfl
  | cons c rest ih =>
    have hticks := ticks_cons c rest
    obtain ⟨hfirst, hrest⟩ := List.forall_mem_cons.mp hcalls
    have hlength : (e.call c).history.length = e.history.length + ticks [c] := by
      cases c with
      | submit | submitWrite | consume => rfl
      | tick =>
        have hone : ticks [.tick] = 1 := rfl
        obtain ⟨s, -, -, -, hhistory, -, -⟩ := h.tick hnameable (by omega)
        change e.tick.engine.history.length = _
        rw [hhistory, List.length_append]
        rfl
    have hlater := ih (h.call (c := c) (by omega)) (nameable_call hnameable hfirst) hrest (by omega)
    change ((e.call c).after rest).history.length = _
    omega

/-- An engine that has been set up is on time, whatever time its world begins at. -/
theorem onTime_of_new {initial : World} {rules : RuleSet} {options : EngineOptions}
    {notice : Notice} (hnew : new initial rules options = .ok (e, notice)) :
    ∃ start : Nat, initial.time.toInt? = some (start : Int) ∧ OnTime start e ∧
      e.history = [] := by
  obtain ⟨-, -, hfault, hstore, -⟩ := of_new hnew
  obtain ⟨start, hbegins, hkept⟩ := World.begins_of_fault? hfault
  refine ⟨start, hbegins, ⟨?_, ?_⟩, ?_⟩
  · rw [hstore]
    exact hkept
  · simpa [state, history, hstore, Store.current] using hkept
  · rw [history, hstore]

/-- A tick is committed if its inputs can be named and ticks have been counted exactly. -/
theorem commits_of_new {initial : World} {rules : RuleSet} {options : EngineOptions}
    {notice : Notice} (hnew : new initial rules options = .ok (e, notice))
    (hbegins : initial.time.toInt? = some (start : Int)) {calls : List Call}
    (hnameable : (e.after calls).Nameable) (hlimit : start + ticks calls < Number.exactLimit) :
    ∃ s, (e.after calls).tick.snapshot = .ok s := by
  obtain ⟨start', hbegins', honTime, hnone⟩ := onTime_of_new hnew
  obtain rfl : start = start' := Int.ofNat_inj.mp (Option.some.inj (hbegins.symm.trans hbegins'))
  have hlength : e.history.length = 0 := congrArg List.length hnone
  obtain ⟨hafter, hcount⟩ := honTime.after calls (by omega)
  obtain ⟨s, hs, -⟩ := hafter.tick hnameable (by omega)
  exact ⟨s, hs⟩

/-- As many of them are committed as there have been. -/
theorem history_length_of_new {initial : World} {rules : RuleSet} {options : EngineOptions}
    {notice : Notice} (hnew : new initial rules options = .ok (e, notice))
    (hbegins : initial.time.toInt? = some (start : Int)) {calls : List Call}
    (hcalls : ∀ c ∈ calls, c.Nameable) (hlimit : start + ticks calls ≤ Number.exactLimit) :
    (e.after calls).history.length = ticks calls := by
  obtain ⟨start', hbegins', honTime, hnone⟩ := onTime_of_new hnew
  obtain rfl : start = start' := Int.ofNat_inj.mp (Option.some.inj (hbegins.symm.trans hbegins'))
  have hlength : e.history.length = 0 := congrArg List.length hnone
  have hcount := honTime.length_after (nameable_of_new hnew) calls hcalls (by omega)
  omega

end Engine

end Harbormaster
