import Harbormaster.Proofs.Engine.Clock
import Harbormaster.Proofs.Session.Calls
import Harbormaster.Proofs.Shell.Words
import Harbormaster.Shell.Basic

/-!
Lines typed into a shell. A line can be told by its words alone to run ticks, to hand in an
input, to start again or to do none of these; what it does to the session is this deed and
nothing else, whatever else the shell is looking at.
-/

namespace Harbormaster.Shell

/-- What a line does to the engine of a session. -/
inductive Deed where
  | tick (count : Nat)
  | submit (input : Input)
  | reset

/-- The engine after a deed, when `fresh` is the engine that the session began with. -/
def Deed.apply (fresh e : Engine) : Deed → Engine
  | tick count => (e.run count).1
  | submit input => e.submit input
  | reset => fresh

def tickDeed? (argument : Option String) : Option Deed := (tickCount? argument).map .tick

def inputDeed? (argument : Option String) : Option Deed :=
  match argument.getD "" with
  | "" => none
  | spec => (Input.ofSpec spec).toOption.map .submit

def setDeed? : List String → Option Deed
  | path :: text :: _ => some (.submit (.write path (readLiteral text)))
  | _ => none

def Command.deed? (c : Command) : Option Deed :=
  match c.name with
  | "tick" => tickDeed? c.arguments.head?
  | "input" => inputDeed? c.arguments.head?
  | "set" => setDeed? c.arguments
  | "reset" => some .reset
  | _ => none

/-- The commands that may have a deed. -/
def Command.changes (c : Command) : Bool := ["tick", "input", "set", "reset"].contains c.name

theorem deed?_of_not_changes {c : Command} (h : c.changes = false) : c.deed? = none := by
  unfold Command.deed?
  split
  case h_5 => rfl
  all_goals
    rename_i hname
    rw [Command.changes, hname] at h
    exact absurd h (by decide)

/-- A move of the cursor over the history, with the snapshot that it reaches. -/
abbrev Move := Cursor → List Snapshot → Option Snapshot × Cursor

def rewindMove? (argument : Option String) : Option Move :=
  match argument.map Number.ofText with
  | none => none
  | some tick =>
    if tick.isInteger then some fun cursor commits => cursor.seek commits tick else none

def Command.move? (c : Command) : Option Move :=
  match c.name with
  | "rewind" => rewindMove? c.arguments.head?
  | "back" => some Cursor.back
  | "forward" => some Cursor.forward
  | _ => none

/-- What can come of a command, by its deed and its move: without a deed the session and the
table of sessions stay as they are, and without a move the cursor does. -/
inductive Ran (s : Shell) (c : Command) : Option Deed → Option Move → CommandOutcome → Prop where
  | stopped {notices : List Notice} (hname : c.name = "exit") :
      Ran s c none none ⟨.ok false, s, notices⟩
  | looked {notices : List Notice} (hname : c.name ≠ "exit") :
      Ran s c none none ⟨.ok true, s, notices⟩
  | failed {failure : Failure} (hname : c.name ≠ "exit") :
      Ran s c none none ⟨.error failure, s, []⟩
  | replayed (move : Move) (hname : c.name ≠ "exit") : Ran s c none (some move) (s.replay move)
  | ticked {count : Nat} {snapshots : List Snapshot} {notices : List Notice}
      (hname : c.name ≠ "exit") (hrun : (s.session.engine.run count).2.1 = .ok snapshots) :
      Ran s c (some (.tick count)) none
        ⟨.ok true, s.withEngine (s.session.engine.run count).1, notices⟩
  | interrupted {count : Nat} {failure : Failure} {notices : List Notice}
      (hname : c.name ≠ "exit") (hrun : (s.session.engine.run count).2.1 = .error failure) :
      Ran s c (some (.tick count)) none
        ⟨.error failure, s.withEngine (s.session.engine.run count).1, notices⟩
  | submitted {input : Input} {notices : List Notice} (hname : c.name ≠ "exit") :
      Ran s c (some (.submit input)) none
        ⟨.ok true, s.withEngine (s.session.engine.submit input), notices⟩
  | reset (hname : c.name ≠ "exit") : Ran s c (some .reset) none s.reset

variable {s : Shell} {c : Command} {deed : Option Deed} {move : Option Move}
  {outcome : CommandOutcome}

section Commands

variable (hother : c.name ≠ "exit")

include hother

theorem ran_tick (argument : Option String) :
    Ran s c (tickDeed? argument) none (s.tick argument) := by
  unfold tickDeed? tick
  cases tickCount? argument with
  | none => exact .looked hother
  | some count =>
    dsimp only [Option.map_some]
    cases hrun : (s.session.engine.run count).2.1 with
    | ok snapshots => exact .ticked hother hrun
    | error failure => exact .interrupted hother hrun

theorem ran_input (argument : Option String) :
    Ran s c (inputDeed? argument) none (s.input argument) := by
  unfold inputDeed? Shell.input
  generalize argument.getD "" = spec
  by_cases hspec : spec = ""
  · subst hspec
    exact .looked hother
  · simp only
    cases Input.ofSpec spec with
    | error failure => exact .failed hother
    | ok input => exact .submitted hother

theorem ran_set (arguments : List String) :
    Ran s c (setDeed? arguments) none (s.set arguments) := by
  match arguments with
  | [] | [path] => exact .looked hother
  | path :: text :: rest => exact .submitted hother

theorem ran_state (argument : Option String) : Ran s c none none (s.state argument) := by
  unfold Shell.state
  split
  · exact .looked hother
  · split
    · exact .failed hother
    · exact .looked hother

theorem ran_explain (argument : Option String) : Ran s c none none (s.explain argument) := by
  unfold Shell.explain
  split
  · exact .looked hother
  · dsimp only
    split
    · split
      · exact .looked hother
      · exact .looked hother
    · split
      · exact .looked hother
      · exact .looked hother

theorem ran_rewind (argument : Option String) :
    Ran s c none (rewindMove? argument) (s.rewind argument) := by
  unfold rewindMove? rewind
  cases argument.map Number.ofText with
  | none => exact .looked hother
  | some tick =>
    dsimp only
    split
    · exact .replayed _ hother
    · exact .looked hother

omit hother in
/-- What comes of each command is told by its deed and its move. -/
theorem ran (s : Shell) (c : Command) : Ran s c c.deed? c.move? (s.run c) := by
  unfold run
  split
  case h_2 hname =>
    simp only [Command.deed?, Command.move?, hname]
    exact .stopped hname
  case h_14 _ hexit _ htick hinput hset _ _ _ hrewind hback hforward hreset =>
    have hdeed : c.deed? = none := by
      apply deed?_of_not_changes
      simp only [Command.changes, List.contains_cons, List.contains_nil, Bool.or_false,
        Bool.or_eq_false_iff, beq_eq_false_iff_ne]
      exact ⟨htick, hinput, hset, hreset⟩
    have hmove : c.move? = none := by
      unfold Command.move?
      split
      · contradiction
      · contradiction
      · contradiction
      · rfl
    rw [hdeed, hmove]
    exact .looked hexit
  all_goals
    rename_i hname
    have hother : c.name ≠ "exit" := by rw [hname]; decide
    simp only [Command.deed?, Command.move?, hname]
  · exact .looked hother
  · exact .looked hother
  · exact ran_tick hother _
  · exact ran_input hother _
  · exact ran_set hother _
  · exact ran_state hother _
  · exact ran_explain hother _
  · exact .looked hother
  · exact ran_rewind hother _
  · exact .replayed _ hother
  · exact .replayed _ hother
  · exact .reset hother

end Commands

section Lines

def enter (s : Shell) (typed : String) : Shell := (s.step typed).2.1

def entered (s : Shell) (lines : List String) : Shell := lines.foldl enter s

def fails (s : Shell) (typed : String) : Bool := !(s.run (command typed)).result.isOk

def deeds (lines : List String) : List Deed := lines.filterMap fun line => (command line).deed?

theorem enter_eq (s : Shell) (typed : String) : s.enter typed = (s.run (command typed)).shell := by
  unfold enter step command
  dsimp only
  split
  · rfl
  · rfl

theorem result_replay (s : Shell) (move : Move) : (s.replay move).result = .ok true := by
  unfold replay
  dsimp only
  split
  · rfl
  · rfl

/-- Moving the cursor touches nothing but the cursor. -/
theorem shell_replay (s : Shell) (move : Move) :
    (s.replay move).shell =
      { s with cursor := some (move (s.cursor.getD Cursor.new) s.session.engine.history).2 } := by
  unfold replay
  dsimp only
  split
  · rfl
  · rfl

/-- A shell goes on after every command but an exit. -/
theorem Ran.goesOn (h : Ran s c deed move outcome) :
    outcome.result.toOption.getD true = false ↔ c.name = "exit" := by
  cases h with
  | stopped hname => simp [hname, Except.toOption]
  | looked hname | failed hname | ticked hname | interrupted hname | submitted hname =>
    simp [hname, Except.toOption]
  | replayed move hname =>
    rw [result_replay]
    simp [hname, Except.toOption]
  | reset hname =>
    have hgoesOn : s.reset.result.toOption.getD true = true := by
      unfold Shell.reset
      split
      · rfl
      · rfl
    simp [hname, hgoesOn]

theorem goesOn_eq_false_iff (s : Shell) (typed : String) :
    (s.step typed).1 = false ↔ IsExit typed := by
  have hstep : (s.step typed).1 = (s.run (command typed)).result.toOption.getD true := by
    unfold step command
    dsimp only
    cases (s.run (.ofText (Text.trim typed))).result with
    | ok goesOn => rfl
    | error failure => rfl
  rw [← name_eq_exit_iff, hstep]
  exact (ran s (command typed)).goesOn

end Lines

section Sessions

variable {base : Sessions} {begun : Session} {notice : Notice}

/-- A shell over a session that was begun in a table of sessions: the session stands in the
table as the shell holds it, and everything else there is as it was. -/
structure Working (base : Sessions) (begun : Session) (s : Shell) : Prop where
  rules : s.sessions.rules = base.rules
  options : s.sessions.options = base.options
  own : s.sessions.get? begun.id = some s.session
  others : ∀ id, id ≠ begun.id → s.sessions.get? id = base.get? id
  id : s.session.id = begun.id
  scenario : s.session.scenario = begun.scenario

theorem Working.session_eq (h : Working base begun s) :
    s.session = { begun with engine := s.session.engine } := by
  rw [← h.id, ← h.scenario]

/-- The shell goes on with another engine in its session. -/
theorem Working.put (h : Working base begun s) (engine : Engine) (cursor : Option Cursor) :
    Working base begun
      ⟨s.sessions.put { s.session with engine }, { s.session with engine }, cursor⟩ := by
  refine ⟨h.rules, h.options, ?_, ?_, h.id, h.scenario⟩
  · unfold Sessions.get? Sessions.put
    rw [Record.get?_set]
    exact if_pos h.id.symm
  · intro id hother
    unfold Sessions.get? Sessions.put
    rw [Record.get?_set, h.id, if_neg hother]
    exact h.others id hother

/-- Starting again always succeeds, with the engine that the session began with. -/
theorem Working.reset (h : Working base begun s)
    (hstart : base.start begun.scenario = .ok (begun.engine, notice)) :
    s.reset.result = .ok true ∧
      s.reset.shell = ⟨s.sessions.put { s.session with engine := begun.engine },
        { s.session with engine := begun.engine }, none⟩ := by
  have hown : s.sessions.get? s.session.id = some s.session := h.id ▸ h.own
  have hagain : s.sessions.start s.session.scenario = .ok (begun.engine, notice) := by
    rw [Sessions.start_congr h.rules h.options, h.scenario, hstart]
  unfold Shell.reset
  rw [Sessions.reset_of_start hown hagain]
  exact ⟨rfl, rfl⟩

/-- A shell that is closed takes its own session away, and no other. -/
theorem Working.get?_close (h : Working base begun s) :
    s.close.get? begun.id = none ∧
      ∀ id, id ≠ begun.id → s.close.get? id = base.get? id := by
  unfold close Sessions.delete Sessions.get?
  dsimp only
  rw [h.id]
  constructor
  · rw [Record.get?_erase]
    exact if_pos rfl
  · intro id hother
    rw [Record.get?_erase, if_neg hother]
    exact h.others id hother

/-- A command does its deed to the engine of the session, and nothing else. -/
theorem Ran.working (hran : Ran s c deed move outcome) (h : Working base begun s)
    (hstart : base.start begun.scenario = .ok (begun.engine, notice)) :
    Working base begun outcome.shell ∧
      outcome.shell.session.engine =
        deed.elim s.session.engine (Deed.apply begun.engine s.session.engine) := by
  cases hran with
  | stopped | looked | failed => exact ⟨h, rfl⟩
  | replayed move =>
    rw [shell_replay]
    exact ⟨⟨h.rules, h.options, h.own, h.others, h.id, h.scenario⟩, rfl⟩
  | ticked | interrupted | submitted => exact ⟨h.put _ s.cursor, rfl⟩
  | reset =>
    rw [(h.reset hstart).2]
    exact ⟨h.put _ none, rfl⟩

theorem Working.enter (h : Working base begun s)
    (hstart : base.start begun.scenario = .ok (begun.engine, notice)) (typed : String) :
    Working base begun (s.enter typed) ∧
      (s.enter typed).session.engine =
        (command typed).deed?.elim s.session.engine (Deed.apply begun.engine s.session.engine) := by
  rw [enter_eq]
  exact (ran s (command typed)).working h hstart

/-- The engine after some lines is told by their deeds. -/
theorem Working.entered (h : Working base begun s)
    (hstart : base.start begun.scenario = .ok (begun.engine, notice)) (lines : List String) :
    Working base begun (s.entered lines) ∧
      (s.entered lines).session.engine =
        (deeds lines).foldl (Deed.apply begun.engine) s.session.engine := by
  induction lines generalizing s with
  | nil => exact ⟨h, rfl⟩
  | cons typed rest ih =>
    obtain ⟨hfirst, hengine⟩ := h.enter hstart typed
    obtain ⟨hrest, hfinal⟩ := ih hfirst
    refine ⟨hrest, ?_⟩
    unfold deeds at *
    change (Shell.entered (s.enter typed) rest).session.engine = _
    rw [hfinal, hengine, List.filterMap_cons]
    cases (command typed).deed? with
    | none => rfl
    | some deed => rfl

/-- Lines with the same deeds lead to the same session. -/
theorem Working.session_congr (h : Working base begun s)
    (hstart : base.start begun.scenario = .ok (begun.engine, notice)) {lines others : List String}
    (hdeeds : deeds lines = deeds others) :
    (s.entered lines).session = (s.entered others).session := by
  obtain ⟨hlines, hengine⟩ := h.entered hstart lines
  obtain ⟨hothers, hengine'⟩ := h.entered hstart others
  rw [hlines.session_eq, hothers.session_eq, hengine, hengine', hdeeds]

end Sessions

end Harbormaster.Shell
