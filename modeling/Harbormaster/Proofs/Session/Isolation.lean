import Harbormaster.Proofs.Session.Calls

/-!
Sessions are isolated. A table with many sessions is compared with one in which only the
calls that concern one session are made: the two agree in this session, and a call either
concerns it and is answered alike, or leaves it as it was. How the table of the one session
numbers its sessions does not matter, as long as its first identifier is that of the session.
-/

namespace Harbormaster.Sessions

variable {s alone : Sessions} {id : String} {session : Session} {owner : Option String}
  {c : Call}

/-- A table of sessions beside one that only the calls on one session are made on. Where
the session has not been created yet, it is the first one that the second table creates. -/
structure Paired (id : String) (s alone : Sessions) : Prop where
  rules : alone.rules = s.rules
  options : alone.options = s.options
  session : alone.get? id = s.get? id
  fresh : (∃ k < s.issued, s.identifier k = id) ∨ (alone.issued = 0 ∧ alone.identifier 0 = id)

/-- What concerns another session leaves the pair as it is. -/
theorem Paired.of_other {t : Sessions} (h : Paired id s alone) (hmoves : Moves s owner t)
    (hother : owner ≠ some id) : Paired id t alone := by
  refine ⟨h.rules.trans hmoves.rules.symm, h.options.trans hmoves.options.symm,
    h.session.trans (hmoves.get? hother).symm, ?_⟩
  rcases h.fresh with ⟨k, hk, hid⟩ | hfirst
  · exact .inl ⟨k, Nat.lt_of_lt_of_le hk hmoves.issued, hmoves.identifier ▸ hid⟩
  · exact .inr hfirst

/-- A session that both tables put in its place is the same in both. -/
theorem Paired.put (h : Paired id s alone) (hid : session.id = id) (hissued : ∃ k < s.issued,
    s.identifier k = id) : Paired id (s.put session) (alone.put session) := by
  refine ⟨h.rules, h.options, ?_, .inl hissued⟩
  subst hid
  unfold get? Sessions.put
  rw [Record.get?_set, Record.get?_set, if_pos rfl, if_pos rfl]

/-- The session that the second table creates first is created alike. -/
theorem Paired.create {name : Value} (h : Paired id s alone)
    (hdistinct : Function.Injective s.identifier) (howner : s.owner (.create name) = some id) :
    alone.step (.create name) = s.step (.create name) ∧
      Paired id (s.call (.create name)) (alone.call (.create name)) := by
  obtain ⟨scenario, hname, hid⟩ := Option.map_eq_some_iff.mp howner
  have hfirst : alone.issued = 0 ∧ alone.identifier 0 = id := by
    refine h.fresh.resolve_left ?_
    rintro ⟨k, hk, hsame⟩
    exact absurd (hdistinct (hsame.trans hid.symm)) (Nat.ne_of_lt hk)
  obtain ⟨hzero, rfl⟩ := hfirst
  have hissued : ∃ k < s.issued + 1, s.identifier k = alone.identifier 0 :=
    ⟨s.issued, Nat.lt_succ_self _, hid⟩
  have hsame := start_congr h.rules h.options scenario
  cases hstart : s.start scenario with
  | error failure =>
    have halone := hsame.trans hstart
    constructor
    · simp only [step, perform, Sessions.owner, create_of_failure hname hstart,
        create_of_failure hname halone, hname, hid, hzero]
    · simp only [Sessions.call, perform, create_of_failure hname hstart,
        create_of_failure hname halone]
      exact ⟨h.rules, h.options, h.session, .inl hissued⟩
  | ok started =>
    obtain ⟨engine, notice⟩ := started
    have halone := hsame.trans hstart
    constructor
    · simp only [step, perform, Sessions.owner, create_of_start hname hstart,
        create_of_start hname halone, hname, hid, hzero]
    · simp only [Sessions.call, perform, create_of_start hname hstart,
        create_of_start hname halone, hid, hzero]
      refine ⟨h.rules, h.options, ?_, .inl hissued⟩
      unfold get?
      rw [Record.get?_set, Record.get?_set, if_pos rfl, if_pos rfl]

/-- A call on the session is answered alike. -/
theorem Paired.call (h : Paired id s alone) (hs : Orderly s)
    (hdistinct : Function.Injective s.identifier) (howner : s.owner c = some id) :
    alone.step c = s.step c ∧ Paired id (s.call c) (alone.call c) := by
  cases c with
  | create name => exact h.create hdistinct howner
  | get other =>
    cases howner
    exact ⟨by simp only [step, perform, Sessions.owner, h.session], h⟩
  | require other =>
    cases howner
    exact ⟨by simp only [step, perform, Sessions.owner, require, h.session], h⟩
  | delete other =>
    cases howner
    have hthere : alone.active.contains id = s.active.contains id :=
      congrArg Option.isSome h.session
    refine ⟨by simp only [step, perform, Sessions.owner, delete, hthere], h.rules, h.options, ?_,
      h.fresh⟩
    unfold get?
    rw [Sessions.call, Sessions.call, perform, perform, delete, delete, Record.get?_erase,
      Record.get?_erase, if_pos rfl, if_pos rfl]
  | reset other =>
    cases howner
    cases hsession : s.get? id with
    | none =>
      have halone := h.session.trans hsession
      constructor
      · simp only [step, perform, Sessions.owner, reset_of_missing hsession,
          reset_of_missing halone]
      · simpa only [Sessions.call, perform, reset_of_missing hsession, reset_of_missing halone]
    | some session =>
      have halone := h.session.trans hsession
      have hid := hs.keyed _ _ hsession
      have hissued := hs.issued _ _ hsession
      obtain ⟨engine, notice, hstart⟩ := hs.startable _ _ hsession
      have hagain := (start_congr h.rules h.options session.scenario).trans hstart
      constructor
      · simp only [step, perform, Sessions.owner, reset_of_start hsession hstart,
          reset_of_start halone hagain]
      · simp only [Sessions.call, perform, reset_of_start hsession hstart,
          reset_of_start halone hagain]
        exact h.put hid hissued
  | engine other request =>
    cases howner
    cases hsession : s.get? id with
    | none =>
      have halone := h.session.trans hsession
      constructor
      · simp only [step, perform, Sessions.owner, pass_of_missing hsession, pass_of_missing halone]
      · simpa only [Sessions.call, perform, pass_of_missing hsession, pass_of_missing halone]
    | some session =>
      have halone := h.session.trans hsession
      have hid := hs.keyed _ _ hsession
      have hissued := hs.issued _ _ hsession
      constructor
      · simp only [step, perform, Sessions.owner, pass_of_get? hsession, pass_of_get? halone]
      · simp only [Sessions.call, perform, pass_of_get? hsession, pass_of_get? halone]
        exact h.put hid hissued

/-- The steps of a session are those that its own calls make alone. -/
theorem Paired.steps (h : Paired id s alone) (hs : Orderly s)
    (hdistinct : Function.Injective s.identifier) (calls : List Call) :
    alone.steps ((own id (s.steps calls)).map (·.call)) = own id (s.steps calls) := by
  induction calls generalizing s alone with
  | nil => rfl
  | cons c rest ih =>
    have hmoves := moves_call hs c
    have hlater : Function.Injective (s.call c).identifier := hmoves.identifier ▸ hdistinct
    by_cases howner : s.owner c = some id
    · obtain ⟨hstep, hpaired⟩ := h.call hs hdistinct howner
      have hfilter : own id (s.steps (c :: rest)) = s.step c :: own id ((s.call c).steps rest) :=
        List.filter_cons_of_pos (decide_eq_true howner)
      rw [hfilter, List.map_cons]
      exact congrArg₂ List.cons hstep (ih hpaired (orderly_call hs c) hlater)
    · have hfilter : own id (s.steps (c :: rest)) = own id ((s.call c).steps rest) :=
        List.filter_cons_of_neg (mt of_decide_eq_true howner)
      rw [hfilter]
      exact ih (h.of_other hmoves howner) (orderly_call hs c) hlater

section Counting

def Step.follow (living : List String) (step : Step) : List String :=
  match step.call, step.answer with
  | .create _, .created (.ok session) => living ++ [session.id]
  | .delete id, _ => living.filter (· ≠ id)
  | _, _ => living

def living (steps : List Step) : List String := steps.foldl Step.follow []

structure Lists (s : Sessions) (living : List String) : Prop where
  nodup : living.Nodup
  mem_iff : ∀ id, id ∈ living ↔ (s.get? id).isSome = true

/-- Putting a session in its own place again adds none. -/
theorem Lists.put {living : List String} (h : Lists s living)
    (hthere : (s.get? session.id).isSome = true) : Lists (s.put session) living := by
  refine ⟨h.nodup, fun id => ?_⟩
  rw [h.mem_iff]
  unfold get? Sessions.put at *
  rw [Record.get?_set]
  split
  · rename_i hsame
    rw [hsame, hthere]
    rfl
  · rfl

theorem Lists.create {living : List String} (h : Lists s living) (hs : Orderly s)
    (hdistinct : Function.Injective s.identifier) (name : Value) :
    Lists (s.call (.create name)) ((s.step (.create name)).follow living) := by
  cases hname : Scenario.ofValue? name with
  | none =>
    simp only [Sessions.call, step, perform, create_of_unknown hname]
    exact h
  | some scenario =>
    cases hstart : s.start scenario with
    | error failure =>
      simp only [Sessions.call, step, perform, create_of_failure hname hstart]
      exact ⟨h.nodup, h.mem_iff⟩
    | ok started =>
      obtain ⟨engine, notice⟩ := started
      simp only [Sessions.call, step, perform, create_of_start hname hstart, Step.follow]
      -- the new identifier has not been handed out before
      have hnew : s.identifier s.issued ∉ living := by
        rw [h.mem_iff]
        intro hthere
        obtain ⟨session, hsession⟩ := Option.isSome_iff_exists.mp hthere
        obtain ⟨k, hk, hid⟩ := hs.issued _ session hsession
        exact absurd (hdistinct hid) (Nat.ne_of_lt hk)
      refine ⟨List.concat_eq_append ▸ h.nodup.concat hnew, fun id => ?_⟩
      unfold get? at *
      rw [List.mem_append, List.mem_singleton, h.mem_iff, Record.get?_set]
      unfold get?
      split
      · rename_i hsame
        simp [hsame]
      · rename_i hother
        simp [hother]

theorem Lists.call {living : List String} (h : Lists s living) (hs : Orderly s)
    (hdistinct : Function.Injective s.identifier) (c : Call) :
    Lists (s.call c) ((s.step c).follow living) := by
  cases c with
  | create name => exact h.create hs hdistinct name
  | get other | require other => exact h
  | delete other =>
    refine ⟨h.nodup.filter _, fun id => ?_⟩
    have hsame : (s.call (.delete other)).get? id = if id = other then none else s.get? id :=
      Record.get?_erase s.active other id
    rw [hsame]
    simp only [Step.follow, step, List.mem_filter, h.mem_iff, decide_eq_true_eq]
    split
    · rename_i hgone
      simp [hgone]
    · rename_i hkept
      simp [hkept]
  | reset other =>
    cases hsession : s.get? other with
    | none =>
      simp only [Sessions.call, step, perform, reset_of_missing hsession]
      exact h
    | some session =>
      obtain rfl := hs.keyed _ _ hsession
      obtain ⟨engine, notice, hstart⟩ := hs.startable _ _ hsession
      simp only [Sessions.call, step, perform, reset_of_start hsession hstart]
      exact @Lists.put s { session with engine } living h (Option.isSome_of_eq_some hsession)
  | engine other request =>
    cases hsession : s.get? other with
    | none =>
      simp only [Sessions.call, step, perform, pass_of_missing hsession]
      exact h
    | some session =>
      obtain rfl := hs.keyed _ _ hsession
      simp only [Sessions.call, step, perform, pass_of_get? hsession]
      exact @Lists.put s { session with engine := (session.engine.perform request).2.1 } living h
        (Option.isSome_of_eq_some hsession)

theorem Lists.after {known : List String} (h : Lists s known) (hs : Orderly s)
    (hdistinct : Function.Injective s.identifier) (calls : List Call) :
    Lists (s.after calls) ((s.steps calls).foldl Step.follow known) := by
  induction calls generalizing s known with
  | nil => exact h
  | cons c rest ih =>
    have hlater : Function.Injective (s.call c).identifier :=
      (moves_call hs c).identifier ▸ hdistinct
    exact ih (h.call hs hdistinct c) (orderly_call hs c) hlater

/-- As many sessions are counted as there are in the list. -/
theorem Lists.activeCount {known : List String} (h : Lists s known) (hs : Orderly s) :
    s.activeCount = known.length := by
  have hperm : s.active.keys.Perm known := by
    refine (List.perm_ext_iff_of_nodup hs.distinct h.nodup).mpr fun id => ?_
    rw [h.mem_iff]
    unfold get? Record.get? Record.keys
    rw [← Option.ne_none_iff_isSome, ne_eq, Record.lookupIn_eq_none_iff, not_not]
  have hlength := hperm.length_eq
  rwa [Record.keys, List.length_map] at hlength

end Counting

section Unknown

/-- The session that a call names, and the answer to the call where there is no such one. -/
def Call.unknown? : Call → Option (String × Answer)
  | .create _ => none
  | .get id => some (id, .found none)
  | .require id => some (id, .required (.error (.run (.unknownSession id))))
  | .reset id => some (id, .reset (.error (.run (.unknownSession id))))
  | .delete id => some (id, .deleted false)
  | .engine id _ => some (id, .engine (.error (.run (.unknownSession id))))

/-- A call on an unknown session fails, or returns nothing, and changes nothing at all. -/
theorem perform_of_missing {answer : Answer} (hunknown : c.unknown? = some (id, answer))
    (hmissing : s.get? id = none) : s.perform c = (answer, s, []) := by
  cases c with
  | create name => cases hunknown
  | get other =>
    cases hunknown
    rw [perform, hmissing]
  | require other =>
    cases hunknown
    rw [perform, require_of_missing hmissing]
  | reset other =>
    cases hunknown
    rw [perform, reset_of_missing hmissing]
  | delete other =>
    cases hunknown
    have hsame : s.active.erase id = s.active :=
      congrArg Record.mk (Record.filter_of_absent hmissing)
    have hnone : s.active.contains id = false := congrArg Option.isSome hmissing
    rw [perform, delete, hsame, hnone]
  | engine other request =>
    cases hunknown
    rw [perform, pass_of_missing hmissing]

/-- An identifier that has been handed out and stands for no session is not used again. -/
theorem get?_after_of_missing (hs : Orderly s) (hdistinct : Function.Injective s.identifier)
    (hissued : ∃ k < s.issued, s.identifier k = id) (hmissing : s.get? id = none)
    (calls : List Call) : (s.after calls).get? id = none := by
  induction calls generalizing s with
  | nil => exact hmissing
  | cons c rest ih =>
    have hmoves := moves_call hs c
    have hfirst : (s.call c).get? id = none := by
      by_cases howner : s.owner c = some id
      · cases c with
        | create name =>
          obtain ⟨scenario, -, hid⟩ := Option.map_eq_some_iff.mp howner
          obtain ⟨k, hk, hsame⟩ := hissued
          exact absurd (hdistinct (hsame.trans hid.symm)) (Nat.ne_of_lt hk)
        | get | require | reset | delete | engine =>
          cases howner
          rw [call, perform_of_missing rfl hmissing]
          exact hmissing
      · rw [hmoves.get? howner, hmissing]
    obtain ⟨k, hk, hid⟩ := hissued
    exact ih (orderly_call hs c) (hmoves.identifier ▸ hdistinct)
      ⟨k, Nat.lt_of_lt_of_le hk hmoves.issued, hmoves.identifier ▸ hid⟩ hfirst

theorem get?_after_delete (hs : Orderly s) (hdistinct : Function.Injective s.identifier)
    (hthere : (s.get? id).isSome = true) (later : List Call) :
    ((s.delete id).2.after later).get? id = none := by
  obtain ⟨session, hsession⟩ := Option.isSome_iff_exists.mp hthere
  have hgone : (s.delete id).2.get? id = none := by
    have herased := Record.get?_erase s.active id id
    rwa [if_pos rfl] at herased
  exact get?_after_of_missing (orderly_call hs (.delete id)) hdistinct
    (hs.issued id session hsession) hgone later

end Unknown

section Restarts

variable {rules : RuleSet} {options : EngineOptions}

theorem ofValue?_name (scenario : Scenario) :
    Scenario.ofValue? (.text scenario.name) = some scenario := by
  cases scenario with
  | standard | fog | docking | emergency => rfl

/-- A session that is reset is what its scenario starts with in a new table, and goes on alike. -/
theorem reset_is_fresh (hs : Orderly s) (hdistinct : Function.Injective s.identifier)
    (hrules : s.rules = rules) (hoptions : s.options = options)
    (hsession : s.get? id = some session) :
    ∃ restarted, (s.reset id).1 = .ok restarted ∧ ∀ supply, supply 0 = id →
      ((new rules options supply).create (.text session.scenario.name)).1 = .ok restarted ∧
      ∀ later, ((new rules options supply).create (.text session.scenario.name)).2.1.steps
          ((own id ((s.reset id).2.1.steps later)).map (·.call)) =
        own id ((s.reset id).2.1.steps later) := by
  obtain ⟨engine, notice, hstart⟩ := hs.startable id session hsession
  have hid := hs.keyed id session hsession
  have hissued := hs.issued id session hsession
  have hreset := reset_of_start hsession hstart
  refine ⟨{ session with engine }, congrArg Prod.fst hreset, ?_⟩
  rintro supply rfl
  have hfresh : (new rules options supply).start session.scenario = .ok (engine, notice) :=
    (start_congr hrules.symm hoptions.symm _).trans hstart
  have hcreated := create_of_start (ofValue?_name session.scenario) hfresh
  have hsame : (⟨supply 0, session.scenario, engine⟩ : Session) = { session with engine } := by
    rw [← hid]
  have hpaired : Paired (supply 0) (s.reset (supply 0)).2.1
      ((new rules options supply).create (.text session.scenario.name)).2.1 := by
    rw [hcreated, hreset]
    refine ⟨hrules.symm, hoptions.symm, ?_, .inl hissued⟩
    unfold get? put
    dsimp only
    rw [Record.get?_set, Record.get?_set, if_pos hid.symm, ← hsame]
    exact if_pos rfl
  refine ⟨?_, fun later => ?_⟩
  · rw [hcreated]
    exact congrArg Except.ok hsame
  · have hmoves := moves_call hs (.reset (supply 0))
    exact hpaired.steps (hmoves.orderly hs) (hmoves.identifier ▸ hdistinct) later

end Restarts

/-- What isolation means for sessions that were made from a new table by some steps. -/
structure Isolated (rules : RuleSet) (options : EngineOptions) (s : Sessions) (made : List Step) :
    Prop where
  /-- The calls on a session are answered as if they had been made alone. -/
  alone : ∀ id supply, supply 0 = id →
    (new rules options supply).steps ((own id made).map (·.call)) = own id made
  /-- What concerns one session leaves all others as they are. -/
  apart : ∀ c id, s.owner c ≠ some id → (s.call c).get? id = s.get? id
  /-- A session that is reset is the one that is created from its scenario, and later calls on
  it are answered as they are on that one. -/
  restarted : ∀ id session, s.get? id = some session → ∃ restarted, (s.reset id).1 = .ok restarted ∧
    ∀ supply, supply 0 = id →
      ((new rules options supply).create (.text session.scenario.name)).1 = .ok restarted ∧
      ∀ later, ((new rules options supply).create (.text session.scenario.name)).2.1.steps
          ((own id ((s.reset id).2.1.steps later)).map (·.call)) =
        own id ((s.reset id).2.1.steps later)
  /-- A call on an unknown session finds nothing or fails, and changes nothing. -/
  unknown : ∀ c id answer, c.unknown? = some (id, answer) → s.get? id = none →
    s.perform c = (answer, s, [])
  /-- A session that is deleted is unknown from then on. -/
  deleted : ∀ id, (s.get? id).isSome = true → ∀ later, ((s.delete id).2.after later).get? id = none
  /-- The sessions are counted that have been created and not deleted since. -/
  counted : s.activeCount = (living made).length
  /-- These are the sessions that are there, each of them once. -/
  known : (living made).Nodup ∧ ∀ id, id ∈ living made ↔ (s.get? id).isSome = true

/-- Sessions with distinct identifiers are isolated, whatever calls are made on them in
whatever order. -/
theorem sessions_are_isolated (rules : RuleSet) (options : EngineOptions)
    {identifier : Nat → String} (hdistinct : Function.Injective identifier) (calls : List Call) :
    Isolated rules options ((new rules options identifier).after calls)
      ((new rules options identifier).steps calls) := by
  have hnew := orderly_new rules options identifier
  obtain ⟨hrules, hoptions, hidentifier⟩ := ground_after hnew calls
  have hs := orderly_after hnew calls
  have hlists : Lists (new rules options identifier) [] := by
    refine ⟨List.nodup_nil, fun id => ?_⟩
    have hnone : (new rules options identifier).get? id = none := rfl
    simp [hnone]
  have hknown := hlists.after hnew hdistinct calls
  have hlater : Function.Injective ((new rules options identifier).after calls).identifier :=
    hidentifier ▸ hdistinct
  have hpaired : ∀ id supply, supply 0 = id →
      Paired id (new rules options identifier) (new rules options supply) :=
    fun id supply hfirst => ⟨rfl, rfl, rfl, .inr ⟨rfl, hfirst⟩⟩
  exact
    { alone := fun id supply hfirst =>
        (hpaired id supply hfirst).steps hnew hdistinct calls
      apart := fun c id hother => (moves_call hs c).get? hother
      restarted := fun id session hsession => reset_is_fresh hs hlater hrules hoptions hsession
      unknown := fun c id answer hunknown hmissing => perform_of_missing hunknown hmissing
      deleted := fun id hthere later => get?_after_delete hs hlater hthere later
      counted := hknown.activeCount hs
      known := ⟨hknown.nodup, hknown.mem_iff⟩ }

/-- Two sessions of which the first one is deleted: the second one ticks as it does alone. -/
theorem second_session_stays :
    Function.Injective Nat.repr ∧
      ((new ⟨[], Policy.standard⟩ .standard Nat.repr).after
        [.create "default", .create "fog", .engine "1" (.call .tick), .delete "0"]).activeCount =
          1 ∧
      (new ⟨[], Policy.standard⟩ .standard fun _ => "1").steps
          [.create "fog", .engine "1" (.call .tick)] =
        own "1" ((new ⟨[], Policy.standard⟩ .standard Nat.repr).steps
          [.create "default", .create "fog", .engine "1" (.call .tick), .delete "0"]) := by
  have hdistinct : Function.Injective Nat.repr := fun _ _ => Number.repr_inj
  have hisolated := sessions_are_isolated ⟨[], Policy.standard⟩ .standard hdistinct
    [.create "default", .create "fog", .engine "1" (.call .tick), .delete "0"]
  refine ⟨hdistinct, ?_, ?_⟩
  · rw [hisolated.counted]
    decide +kernel
  · exact hisolated.alone "1" (fun _ => "1") rfl

end Harbormaster.Sessions
