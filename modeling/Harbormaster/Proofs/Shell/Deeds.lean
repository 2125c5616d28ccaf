import Harbormaster.Proofs.Engine.Counting
import Harbormaster.Proofs.Input.Spelling
import Harbormaster.Proofs.Shell.Lines

/-!
The deeds of a shell as calls of its engine. Lines hand in only inputs that reports can name,
since all that is typed in them are texts, truth values and numbers. So a tick line fails only
if it asks for more ticks than can be counted, and until then the engine of the session is the
one it began with, after the calls that the deeds since the last reset stand for.
-/

namespace Harbormaster

section Naming

theorem isScalar_readLiteral (s : String) : (readLiteral s).isScalar = true := by
  unfold readLiteral
  grind [Value.isScalar]

theorem Value.hasText_stored_of_isScalar {v : Value} (h : v.isScalar = true) :
    v.stored.hasText = true := by
  cases v with
  | boolean | text => rfl
  | number n =>
    unfold stored
    split
    · rfl
    · rfl
  | missing | absent | list | record | native | fallback => cases h

/-- Reports can name an input whose parameters are scalars. -/
theorem Input.isNameable_stored {type : String} {params : Record Value}
    (h : params.All fun v => v.isScalar = true) :
    (Input.stored ⟨type, .record params⟩).isNameable = true := by
  have hvalues : ∀ v ∈ (Input.stored ⟨type, .record params⟩).parameters.values,
      v.hasText = true := by
    intro v hv
    obtain ⟨⟨name, kept⟩, hentry, rfl⟩ := List.mem_map.mp hv
    obtain ⟨given, hgiven, hkept⟩ := Value.mem_storedEntries hentry
    obtain ⟨-, rfl⟩ := Option.ite_some_none_eq_some.mp hkept
    exact Value.hasText_stored_of_isScalar (h _ hgiven)
  unfold isNameable
  rw [List.all_eq_true.mpr hvalues]
  rfl

theorem Input.isNameable_of_ofSpec {spec : String} {input : Input} (h : ofSpec spec = .ok input) :
    input.stored.isNameable = true := by
  obtain ⟨-, -, rfl⟩ := ofSpec_eq_ok_iff.mp h
  refine isNameable_stored (Record.all_ofList fun m hm => ?_)
  obtain ⟨piece, -, rfl⟩ := List.mem_map.mp (List.mem_of_mem_filter hm)
  dsimp only [reading]
  exact isScalar_readLiteral _

theorem Input.isNameable_write (path text : String) :
    (Input.write path (readLiteral text)).stored.isNameable = true := by
  refine isNameable_stored (Record.all_ofList fun m hm => ?_)
  simp only [List.mem_cons, List.not_mem_nil, or_false] at hm
  rcases hm with rfl | rfl
  · rfl
  · exact isScalar_readLiteral text

end Naming

namespace Shell

variable {s : Shell} {base : Sessions} {begun : Session} {notice : Notice} {typed : String}
  {c : Command} {deed : Option Deed} {move : Option Move} {outcome : CommandOutcome}

section Deeds

variable {fresh e : Engine} {former : List Engine.Call}

def Deed.count : Deed → Nat
  | tick count => count
  | submit _ | reset => 0

/-- The calls that an engine has had since it was begun, once a deed is added to them. -/
def Deed.calls (former : List Engine.Call) : Deed → List Engine.Call
  | tick count => former ++ .replicate count .tick
  | submit input => former ++ [.submit input]
  | reset => []

def callsOf (deeds : List Deed) : List Engine.Call := deeds.foldl Deed.calls []

/-- What is handed in can be named in reports. -/
def Deed.Nameable (deed : Deed) : Prop :=
  ∀ input, deed = .submit input → input.stored.isNameable = true

theorem Deed.Nameable.timely_apply {deed : Deed} (hname : deed.Nameable) (hfresh : fresh.Timely)
    (h : e.Timely) : (deed.apply fresh e).Timely := by
  cases deed with
  | tick count => exact h.run count
  | submit input => exact h.submit (hname input rfl)
  | reset => exact hfresh

/-- The history is no longer than the ticks of a deed make it. -/
theorem Deed.history_apply {deed : Deed} (hnone : fresh.history = []) (h : e.Timely)
    (hlimit : e.history.length + deed.count ≤ Number.exactLimit) :
    (deed.apply fresh e).history.length ≤ e.history.length + deed.count := by
  cases deed with
  | tick count => exact (h.run_commits hlimit).2.2.le
  | submit input => exact Nat.le_refl _
  | reset =>
    change fresh.history.length ≤ _
    rw [hnone]
    exact Nat.zero_le _

theorem Deed.apply_after {deed : Deed} (h : (fresh.after former).Timely)
    (hlimit : (fresh.after former).history.length + deed.count ≤ Number.exactLimit) :
    deed.apply fresh (fresh.after former) = fresh.after (deed.calls former) := by
  cases deed with
  | tick count =>
    refine (h.run_commits hlimit).2.1.trans ?_
    exact List.foldl_append.symm
  | submit input => exact (List.foldl_concat (Engine.call) fresh (.submit input) former).symm
  | reset => rfl

/-- As long as ticks can be counted, deeds are the calls that they stand for. -/
theorem foldl_apply_after {deeds : List Deed} (hnames : ∀ deed ∈ deeds, deed.Nameable)
    (hfresh : fresh.Timely) (hnone : fresh.history = []) (h : (fresh.after former).Timely)
    (hlimit : (fresh.after former).history.length + (deeds.map Deed.count).sum ≤
      Number.exactLimit) :
    deeds.foldl (Deed.apply fresh) (fresh.after former) =
      fresh.after (deeds.foldl Deed.calls former) := by
  induction deeds generalizing former with
  | nil => rfl
  | cons deed rest ih =>
    obtain ⟨hname, hrest⟩ := List.forall_mem_cons.mp hnames
    rw [List.map_cons, List.sum_cons] at hlimit
    have htimely := hname.timely_apply hfresh h
    have hlength := deed.history_apply hnone h (by omega)
    have hcalls := deed.apply_after h (by omega)
    rw [hcalls] at htimely hlength
    rw [List.foldl_cons, List.foldl_cons, hcalls]
    exact ih hrest htimely (by omega)

/-- What a line hands in can be named in reports. -/
theorem nameable_of_deed? {deed : Deed} (h : c.deed? = some deed) : deed.Nameable := by
  rintro input rfl
  unfold Command.deed? at h
  split at h
  · unfold tickDeed? at h
    cases hcount : tickCount? c.arguments.head? with
    | none | some => rw [hcount] at h; cases h
  · unfold inputDeed? at h
    split at h
    · cases h
    · cases hread : Input.ofSpec (c.arguments.head?.getD "") with
      | ok read =>
        rw [hread] at h
        cases h
        exact Input.isNameable_of_ofSpec hread
      | error failure =>
        rw [hread] at h
        cases h
  · unfold setDeed? at h
    split at h
    · cases h
      exact Input.isNameable_write _ _
    · cases h
  · cases h
  · cases h

theorem nameable_of_mem_deeds (lines : List String) : ∀ deed ∈ deeds lines, deed.Nameable := by
  intro deed hdeed
  obtain ⟨line, -, hline⟩ := List.mem_filterMap.mp hdeed
  exact nameable_of_deed? hline

end Deeds

section Work

def ticksAsked (lines : List String) : Nat := ((deeds lines).map Deed.count).sum

/-- The lines that are typed to tick, to hand in an input or to start again and do not fail. -/
def kept : Shell → List String → List String
  | _, [] => []
  | s, line :: rest =>
    if (command line).changes && !s.fails line then line :: kept (s.enter line) rest
    else kept (s.enter line) rest

variable (h : Working base begun s)
  (hstart : base.start begun.scenario = .ok (begun.engine, notice))
  (hfresh : begun.engine.Timely) (htimely : s.session.engine.Timely)

include h hstart

include htimely in
/-- A command with a deed fails only if it asks for more ticks than can be counted. -/
theorem Ran.deed_of_fails (hran : Ran s c deed move outcome)
    (hfails : outcome.result.isOk = false) :
    deed = none ∨ ∃ count, deed = some (.tick count) ∧
      Number.exactLimit < s.session.engine.history.length + count := by
  cases hran with
  | stopped | looked | failed | replayed => exact .inl rfl
  | @interrupted count failure notices _ hrun =>
    refine .inr ⟨count, rfl, Nat.not_le.mp fun hlimit => ?_⟩
    obtain ⟨snapshots, hcommits⟩ := (htimely.run_commits hlimit).1
    rw [hcommits] at hrun
    cases hrun
  | ticked | submitted => cases hfails
  | reset =>
    rw [(h.reset hstart).1] at hfails
    cases hfails

include htimely in
theorem Working.deed_of_fails (hfails : s.fails typed = true) :
    (command typed).deed? = none ∨ ∃ count, (command typed).deed? = some (.tick count) ∧
      Number.exactLimit < s.session.engine.history.length + count :=
  (ran s (command typed)).deed_of_fails h hstart htimely ((Bool.not_eq_true' _).mp hfails)

include hfresh htimely in
theorem Working.timely_enter (typed : String) : (s.enter typed).session.engine.Timely := by
  rw [(h.enter hstart typed).2]
  cases hdeed : (command typed).deed? with
  | none => exact htimely
  | some deed => exact (nameable_of_deed? hdeed).timely_apply hfresh htimely

include hfresh htimely in
theorem Working.timely_entered (lines : List String) :
    (s.entered lines).session.engine.Timely := by
  induction lines generalizing s with
  | nil => exact htimely
  | cons line rest ih =>
    exact ih (h.enter hstart line).1 (h.timely_enter hstart hfresh htimely line)

omit h hstart in
theorem deeds_cons (line : String) (rest : List String) :
    deeds (line :: rest) = (command line).deed?.toList ++ deeds rest := by
  unfold deeds
  rw [List.filterMap_cons]
  cases (command line).deed? with
  | none => rfl
  | some deed => rfl

omit h hstart in
/-- Lines that only look have no deeds. -/
theorem deeds_filter (lines : List String) :
    deeds (lines.filter fun line => (command line).changes) = deeds lines := by
  induction lines with
  | nil => rfl
  | cons line rest ih =>
    rw [List.filter_cons, deeds_cons]
    split
    · rw [deeds_cons, ih]
    · rename_i hlooks
      rw [ih, deed?_of_not_changes (Bool.eq_false_of_not_eq_true hlooks)]
      rfl

omit h hstart in
theorem ticksAsked_cons (line : String) (rest : List String) :
    ticksAsked (line :: rest) = (command line).deed?.elim 0 Deed.count + ticksAsked rest := by
  unfold ticksAsked
  rw [deeds_cons, List.map_append, List.sum_append]
  cases (command line).deed? with
  | none => rfl
  | some deed => simp

include htimely in
/-- The history after a line is no longer than its ticks make it. -/
theorem Working.history_enter (hnone : begun.engine.history = []) (typed : String)
    (hlimit : s.session.engine.history.length + (command typed).deed?.elim 0 Deed.count ≤
      Number.exactLimit) :
    (s.enter typed).session.engine.history.length ≤
      s.session.engine.history.length + (command typed).deed?.elim 0 Deed.count := by
  rw [(h.enter hstart typed).2]
  cases hdeed : (command typed).deed? with
  | none => exact Nat.le_refl _
  | some deed =>
    rw [hdeed] at hlimit
    exact deed.history_apply hnone htimely hlimit

include hfresh htimely in
/-- As long as ticks can be counted, all deeds are those of lines that do not fail. -/
theorem Working.deeds_kept (hnone : begun.engine.history = []) {lines : List String}
    (hlimit : s.session.engine.history.length + ticksAsked lines ≤ Number.exactLimit) :
    deeds (s.kept lines) = deeds lines := by
  induction lines generalizing s with
  | nil => rfl
  | cons line rest ih =>
    rw [ticksAsked_cons] at hlimit
    have hlength := h.history_enter hstart htimely hnone line (by omega)
    have hrest := ih (h.enter hstart line).1 (h.timely_enter hstart hfresh htimely line) (by omega)
    rw [deeds_cons, kept]
    split
    · rw [deeds_cons, hrest]
    · rename_i hleft
      have hnodeed : (command line).deed? = none := by
        cases hchanges : (command line).changes with
        | false => exact deed?_of_not_changes hchanges
        | true =>
          have hfails : s.fails line = true := by simpa [hchanges] using hleft
          refine (h.deed_of_fails hstart htimely hfails).resolve_right ?_
          rintro ⟨count, hdeed, hbeyond⟩
          rw [hdeed] at hlimit
          dsimp only [Option.elim, Deed.count] at hlimit
          omega
      rw [hnodeed, hrest]
      rfl

end Work

end Shell

end Harbormaster
