import Harbormaster.Proofs.History.Cursors
import Harbormaster.Proofs.Shell.Deeds

/-!
Scripts of a shell. The lines up to the first exit are read, whatever becomes of them, and
then the session of the shell is deleted. What is left of the session until then is the work
of its own lines: of those that run ticks, hand in inputs or start again. Where a tick line
fails it has done a part of its work; this takes more ticks than can be counted.
-/

namespace Harbormaster

namespace Shell

variable {s t : Shell} {base : Sessions} {begun : Session} {notice : Notice} {typed : String}
  {c : Command} {deed : Option Deed} {move : Option Move} {outcome : CommandOutcome}

section Reading

/-- An exit leaves the shell as it is. -/
theorem Ran.shell_of_exit (h : Ran s c deed move outcome) (hname : c.name = "exit") :
    outcome.shell = s := by
  cases h with
  | stopped | looked | failed => rfl
  | replayed _ hother | ticked hother | interrupted hother | submitted hother | reset hother =>
    exact absurd hname hother

theorem enter_of_isExit (h : IsExit typed) : s.enter typed = s := by
  rw [enter_eq]
  exact (ran s (command typed)).shell_of_exit ((name_eq_exit_iff typed).mpr h)

/-- A line that is no exit is followed by the next one. -/
theorem runScript_cons (h : ¬ IsExit typed) (rest : List String) :
    (s.runScript (typed :: rest)).asked = ((s.enter typed).runScript rest).asked + 1 ∧
      (s.runScript (typed :: rest)).unread = ((s.enter typed).runScript rest).unread ∧
      (s.runScript (typed :: rest)).shell = ((s.enter typed).runScript rest).shell := by
  have hgoesOn : (s.step typed).1 = true := by
    rw [← Bool.not_eq_false, goesOn_eq_false_iff]
    exact h
  have hstep : s.step typed = (true, s.enter typed, (s.step typed).2.2) := by
    rw [← hgoesOn]
    rfl
  rw [runScript, hstep]
  exact ⟨rfl, rfl, rfl⟩

/-- An exit is the last line that is read. -/
theorem runScript_exit (h : IsExit typed) (rest : List String) :
    (s.runScript (typed :: rest)).asked = 1 ∧ (s.runScript (typed :: rest)).unread = rest ∧
      (s.runScript (typed :: rest)).shell = s := by
  have hstops : (s.step typed).1 = false := (goesOn_eq_false_iff s typed).mpr h
  have hstep : s.step typed = (false, s, (s.step typed).2.2) :=
    Prod.ext hstops (Prod.ext (enter_of_isExit h) rfl)
  rw [runScript, hstep]
  exact ⟨rfl, rfl, rfl⟩

/-- A shell that has no more lines is told to exit. -/
theorem isExit_exit : IsExit "exit" := (name_eq_exit_iff "exit").mp (by decide +kernel)

theorem runScript_nil : (s.runScript []).shell = s := enter_of_isExit isExit_exit

/-- The lines up to the first exit are read, and no others. -/
theorem runScript_append {before rest : List String} {last : String}
    (hbefore : ∀ line ∈ before, ¬ IsExit line) (hlast : IsExit last) :
    (s.runScript (before ++ last :: rest)).asked = before.length + 1 ∧
      (s.runScript (before ++ last :: rest)).unread = rest ∧
      (s.runScript (before ++ last :: rest)).shell = s.entered before := by
  induction before generalizing s with
  | nil => exact runScript_exit hlast rest
  | cons line others ih =>
    obtain ⟨hline, hothers⟩ := List.forall_mem_cons.mp hbefore
    obtain ⟨hasked, hunread, hshell⟩ := @runScript_cons s line hline (others ++ last :: rest)
    obtain ⟨ihasked, ihunread, ihshell⟩ := @ih (s.enter line) hothers
    rw [List.cons_append, hasked, hunread, hshell, ihasked, ihunread, ihshell]
    exact ⟨rfl, rfl, rfl⟩

/-- A script leads to the shell after some of its lines. -/
theorem exists_entered_runScript (s : Shell) (lines : List String) :
    ∃ read, (s.runScript lines).shell = s.entered read := by
  induction lines generalizing s with
  | nil => exact ⟨[], runScript_nil⟩
  | cons line rest ih =>
    by_cases hexit : IsExit line
    · exact ⟨[], (runScript_exit hexit rest).2.2⟩
    · obtain ⟨read, hread⟩ := ih (s.enter line)
      exact ⟨line :: read, (runScript_cons hexit rest).2.2.trans hread⟩

end Reading

section Replays

def cursorAfter (deed : Option Deed) (move : Option Move) (cursor : Option Cursor)
    (commits : List Snapshot) : Option Cursor :=
  match deed, move with
  | some .reset, _ => none
  | _, some move => some (move (cursor.getD Cursor.new) commits).2
  | _, none => cursor

theorem Ran.cursor (hran : Ran s c deed move outcome) (h : Working base begun s)
    (hstart : base.start begun.scenario = .ok (begun.engine, notice)) :
    outcome.shell.cursor = cursorAfter deed move s.cursor s.session.engine.history := by
  cases hran with
  | stopped | looked | failed | ticked | interrupted | submitted => rfl
  | replayed move => rw [shell_replay]; rfl
  | reset => rw [(h.reset hstart).2]; rfl

theorem Working.cursor_enter (h : Working base begun s)
    (hstart : base.start begun.scenario = .ok (begun.engine, notice)) (typed : String) :
    (s.enter typed).cursor = cursorAfter (command typed).deed? (command typed).move? s.cursor
      s.session.engine.history := by
  rw [enter_eq]
  exact (ran s (command typed)).cursor h hstart

def SameView (s t : Shell) : Prop := t.session = s.session ∧ t.cursor = s.cursor

theorem SameView.enter (hview : SameView s t) (hs : Working base begun s)
    (ht : Working base begun t) (hstart : base.start begun.scenario = .ok (begun.engine, notice))
    (typed : String) : SameView (s.enter typed) (t.enter typed) := by
  obtain ⟨hs', hengine⟩ := hs.enter hstart typed
  obtain ⟨ht', hengine'⟩ := ht.enter hstart typed
  constructor
  · rw [hs'.session_eq, ht'.session_eq, hengine, hengine', hview.1]
  · rw [hs.cursor_enter hstart, ht.cursor_enter hstart, hview.1, hview.2]

theorem SameView.entered (hview : SameView s t) (hs : Working base begun s)
    (ht : Working base begun t) (hstart : base.start begun.scenario = .ok (begun.engine, notice))
    (lines : List String) : SameView (s.entered lines) (t.entered lines) := by
  induction lines generalizing s t with
  | nil => exact hview
  | cons line rest ih =>
    exact ih (hview.enter hs ht hstart line) (hs.enter hstart line).1 (ht.enter hstart line).1

/-- After a reset the shell looks at what it looked at when it was started. -/
theorem Working.sameView_reset (h : Working base begun s)
    (hstart : base.start begun.scenario = .ok (begun.engine, notice)) (hsession : s.session = begun)
    (hcursor : s.cursor = none) (earlier : List String) {again : String}
    (hagain : (command again).name = "reset") :
    SameView s ((s.entered earlier).enter again) ∧
      Working base begun ((s.entered earlier).enter again) := by
  have hdeed : (command again).deed? = some .reset := by
    simp only [Command.deed?, hagain]
  have hearlier := (h.entered hstart earlier).1
  obtain ⟨hafter, hengine⟩ := hearlier.enter hstart again
  rw [hdeed] at hengine
  refine ⟨⟨?_, ?_⟩, hafter⟩
  · rw [hafter.session_eq, hengine, hsession]
    rfl
  · rw [hearlier.cursor_enter hstart, hcursor, hdeed]
    rfl

end Replays

section Showing

variable {move : Move}

def Shows (commits : List Snapshot) (said : List Notice) : Prop :=
  said = [.plain "Nothing to replay there."] ∨ ∃ snapshot ∈ commits,
    said = (("Replaying tick " ++ snapshot.tick.toText ++ " (read-only):") ::
      snapshot.lines true).map Notice.plain

theorem shows_replay (s : Shell)
    (hmove : ∀ cursor commits snapshot, (move cursor commits).1 = some snapshot →
      snapshot ∈ commits) : Shows s.session.engine.history (s.replay move).notices := by
  unfold replay
  dsimp only
  split
  · exact .inl rfl
  · rename_i snapshot hfound
    exact .inr ⟨snapshot, hmove _ _ _ hfound, rfl⟩

theorem said_of_result {goesOn : Bool} (h : (s.run (command typed)).result = .ok goesOn) :
    (s.step typed).2.2 = (s.run (command typed)).notices := by
  unfold step command at *
  dsimp only
  rw [h]

theorem shows_of_run (hrun : s.run (command typed) = s.replay move)
    (hmove : ∀ cursor commits snapshot, (move cursor commits).1 = some snapshot →
      snapshot ∈ commits) : Shows s.session.engine.history (s.step typed).2.2 := by
  have hresult := result_replay s move
  rw [← hrun] at hresult
  rw [said_of_result hresult, hrun]
  exact shows_replay s hmove

/-- Every snapshot that a replay command shows is in the history of the engine. -/
theorem shows_of_replay (s : Shell)
    (hname : (command typed).name ∈ ["rewind", "back", "forward"]) :
    (s.step typed).2.2 = [.plain "Usage: rewind <tick>"] ∨
      Shows s.session.engine.history (s.step typed).2.2 := by
  simp only [List.mem_cons, List.not_mem_nil, or_false] at hname
  rcases hname with hrewind | hback | hforward
  · have hrun : s.run (command typed) = s.rewind (command typed).arguments.head? := by
      simp only [run, hrewind]
    have husage : s.run (command typed) = s.say ["Usage: rewind <tick>"] →
        (s.step typed).2.2 = [.plain "Usage: rewind <tick>"] := by
      intro hsay
      have hresult : (s.run (command typed)).result = .ok true := congrArg (·.result) hsay
      rw [said_of_result hresult, hsay]
      rfl
    unfold rewind at hrun
    split at hrun
    · exact .inl (husage hrun)
    · split at hrun
      · exact .inr (shows_of_run hrun fun _ _ _ => Cursor.mem_of_move (.seek _))
      · exact .inl (husage hrun)
  · have hrun : s.run (command typed) = s.replay Cursor.back := by simp only [run, hback]
    exact .inr (shows_of_run hrun fun _ _ _ => Cursor.mem_of_move .back)
  · have hrun : s.run (command typed) = s.replay Cursor.forward := by simp only [run, hforward]
    exact .inr (shows_of_run hrun fun _ _ _ => Cursor.mem_of_move .forward)

end Showing

section Starting

variable {sessions : Sessions} {name : Value} {scenario : Scenario} {engine : Engine}

def opened (sessions : Sessions) (scenario : Scenario) (engine : Engine) : Shell :=
  let session : Session := ⟨sessions.identifier sessions.issued, scenario, engine⟩
  ⟨{ sessions with
      issued := sessions.issued + 1
      active := sessions.active.set session.id session }, session, none⟩

theorem start_of_name (hname : Scenario.ofValue? name = some scenario)
    (hstart : sessions.start scenario = .ok (engine, notice)) :
    (Shell.start sessions name).1 = .ok (opened sessions scenario engine) := by
  rw [Shell.start, Sessions.create_of_start hname hstart]
  rfl

theorem opened_of_start (h : (Shell.start sessions name).1 = .ok s) :
    ∃ scenario engine notice, Scenario.ofValue? name = some scenario ∧
      sessions.start scenario = .ok (engine, notice) ∧ s = opened sessions scenario engine := by
  cases hname : Scenario.ofValue? name with
  | none =>
    rw [Shell.start, Sessions.create_of_unknown hname] at h
    cases h
  | some scenario =>
    cases hstart : sessions.start scenario with
    | error failure =>
      rw [Shell.start, Sessions.create_of_failure hname hstart] at h
      cases h
    | ok started =>
      obtain ⟨engine, notice⟩ := started
      rw [start_of_name hname hstart] at h
      cases h
      exact ⟨scenario, engine, notice, rfl, hstart, rfl⟩

/-- The shell works on the session that it has created, beside all others. -/
theorem working_opened (sessions : Sessions) (scenario : Scenario) (engine : Engine) :
    Working (opened sessions scenario engine).sessions (opened sessions scenario engine).session
        (opened sessions scenario engine) ∧
      ∀ id, id ≠ (opened sessions scenario engine).session.id →
        (opened sessions scenario engine).sessions.get? id = sessions.get? id := by
  refine ⟨⟨rfl, rfl, ?_, fun _ _ => rfl, rfl, rfl⟩, fun id hother => ?_⟩
  · unfold Sessions.get? opened
    rw [Record.get?_set]
    exact if_pos rfl
  · unfold Sessions.get? opened at *
    rw [Record.get?_set]
    exact if_neg hother

theorem fault?_world (scenario : Scenario) : scenario.world.fault? = none := by
  cases scenario with
  | standard | fog | docking | emergency => rfl

/-- A shell is started on every scenario, if an engine can be set up at all. -/
theorem start_succeeds_iff :
    (∃ s, (Shell.start sessions name).1 = .ok s) ↔
      (Scenario.ofValue? name).isSome = true ∧
        (∃ depth, Engine.chainDepth sessions.options.maxChainDepth = .ok depth) ∧
        (sessions.rules.rules.map (·.id)).Nodup := by
  constructor
  · rintro ⟨s, hs⟩
    obtain ⟨scenario, engine, notice, hname, hstart, -⟩ := opened_of_start hs
    refine ⟨Option.isSome_of_eq_some hname, ?_, (Engine.of_new hstart).2.1⟩
    unfold Sessions.start Engine.new at hstart
    cases hdepth : Engine.chainDepth sessions.options.maxChainDepth with
    | ok depth => exact ⟨depth, rfl⟩
    | error failure =>
      rw [hdepth] at hstart
      cases hstart
  · rintro ⟨hname, ⟨depth, hdepth⟩, hids⟩
    obtain ⟨scenario, hscenario⟩ := Option.isSome_iff_exists.mp hname
    obtain ⟨engine, notice, hnew⟩ := Engine.new_succeeds hdepth hids (fault?_world scenario)
    exact ⟨_, start_of_name hscenario hnew⟩

/-- A scenario starts with an empty history, at the time zero, and no inputs wait. -/
theorem timely_of_start (hstart : sessions.start scenario = .ok (engine, notice)) :
    engine.history = [] ∧ engine.Timely := by
  obtain ⟨start, hbegins, honTime, hnone⟩ := Engine.onTime_of_new hstart
  have hzero : scenario.world.time.toInt? = some 0 := by
    cases scenario with
    | standard | fog | docking | emergency => rfl
  rw [hzero] at hbegins
  obtain rfl : start = 0 := by
    have hsame := Option.some.inj hbegins
    omega
  exact ⟨hnone, fun _ => honTime, Engine.nameable_of_new hstart⟩

end Starting

/-- What it means that a shell, started under a name beside the sessions of a table, is driven
by its own lines. -/
structure Driven (others : Sessions) (name : Value) (s : Shell) : Prop where
  /-- The session begins with an engine that is set up over the scenario of that name. -/
  begins : ∃ notice, Scenario.ofValue? name = some s.session.scenario ∧
    Engine.new s.session.scenario.world others.rules others.options =
      .ok (s.session.engine, notice)
  /-- The lines up to the first exit are read, whatever becomes of them, and no others. -/
  reads : ∀ before last rest, (∀ line ∈ before, ¬ IsExit line) → IsExit last →
    (s.runScript (before ++ last :: rest)).asked = before.length + 1 ∧
      (s.runScript (before ++ last :: rest)).unread = rest ∧
      (s.runScript (before ++ last :: rest)).shell = s.entered before
  /-- The session stands in the table until the shell is closed; then it is gone, and every
  other one is as it was. -/
  closes : ∀ lines,
    (s.runScript lines).shell.sessions.get? s.session.id = some (s.runScript lines).shell.session ∧
      (s.runScript lines).shell.close.get? s.session.id = none ∧
      ∀ id, id ≠ s.session.id → (s.runScript lines).shell.close.get? id = others.get? id
  /-- Lines do nothing to the session but their deeds: some ticks are run, an input is handed
  in, or the engine is again the one that the session began with. -/
  works : ∀ lines, (s.entered lines).session =
    { s.session with
      engine := (deeds lines).foldl (Deed.apply s.session.engine) s.session.engine }
  /-- As long as ticks can be counted, the engine is the first one after as many calls of `tick`
  and of `submit` as the lines since the last reset spell. -/
  calls : ∀ lines, ticksAsked lines ≤ 2 ^ 53 →
    (s.entered lines).session.engine = s.session.engine.after (callsOf (deeds lines))
  /-- The session would be the same with the lines alone that tick, hand in inputs or start
  again. -/
  changes : ∀ lines, (s.entered (lines.filter fun line => (command line).changes)).session =
    (s.entered lines).session
  /-- And with those alone that do not fail either, as long as ticks can be counted; all deeds
  are theirs. -/
  kept : ∀ lines, ticksAsked lines ≤ 2 ^ 53 → deeds (s.kept lines) = deeds lines ∧
    (s.entered (s.kept lines)).session = (s.entered lines).session
  /-- Lines that only look, or are not understood, leave the session as it is. -/
  looks : ∀ lines typed, (command typed).changes = false →
    ((s.entered lines).enter typed).session = (s.entered lines).session
  /-- So do lines that fail, except for a tick line that asks for more ticks than can be
  counted. -/
  fails : ∀ lines typed, (s.entered lines).fails typed = true →
    ((s.entered lines).enter typed).session = (s.entered lines).session ∨
      ∃ count, (command typed).deed? = some (.tick count) ∧
        2 ^ 53 < (s.entered lines).session.engine.history.length + count
  /-- Once it is reset, a shell goes on as if it had just been started: with the engine that the
  session began with, and with no place in a history. -/
  resets : ∀ earlier again later, (command again).name = "reset" →
    (s.entered (earlier ++ again :: later)).session = (s.entered later).session ∧
      (s.entered (earlier ++ again :: later)).cursor = (s.entered later).cursor
  /-- What is replayed is in the history of the engine. -/
  shows : ∀ lines typed, (command typed).name ∈ ["rewind", "back", "forward"] →
    ((s.entered lines).step typed).2.2 = [.plain "Usage: rewind <tick>"] ∨
      Shows (s.entered lines).session.engine.history ((s.entered lines).step typed).2.2

end Shell

end Harbormaster
