import Harbormaster.Proofs.Action.Deeds
import Harbormaster.Proofs.Expression.Failures
import Harbormaster.Proofs.Rule.Passed
import Harbormaster.Proofs.Value.Plain
import Harbormaster.Proofs.World.Refusals

/-!
Why an action fails that has passed its check. Its parameters are there and of the
right kind, so its deed can be drawn up as far as the world allows: what is left are
failures that lie in the state of the world. What an expression amounts to counts as
state, also where the expression itself is not well formed, since only its braces are
looked at by the check.
-/

namespace Harbormaster

def Action.operands (a : Action) : List Value :=
  a.value :: a.minValue :: a.maxValue :: a.eventPayload.members.values

namespace Failure

/-- The failures of an action that lie in the state of the world: an agent is not there, be it
that its name leads to what all records have, a path has nothing to be read, a value is of the
wrong type, the value to write is absent, an expression cannot be evaluated, or bounds that are
not both literal come out reversed. -/
inductive OfState (a : Action) (w : World) : Failure → Prop where
  | noAgent {agent : String} (fault : AccessFault) (hagent : w.agents.get? agent = none) :
      OfState a w (World.noAgent agent fault (.unknownAgent agent))
  | unread {path : Path} {failure : Failure} (hread : w.readAt path = .error failure) :
      OfState a w failure
  | mismatch (cause : TypeMismatch) : OfState a w (.typeMismatch cause)
  | absent (hvalue : w.resolve a.value = .ok .absent) :
      OfState a w (.invalidAction (.absentValue a.target.plainText))
  | expression {text body : String} {failure : Failure} (hoperand : .text text ∈ a.operands)
      (hbody : Expression.body? text = some body)
      (hfails : Expression.evaluate (Text.trim body) w = .error failure) : OfState a w failure
  | reversed {low high : Number} (hlow : w.resolve a.minValue = .ok (.number low))
      (hhigh : w.resolve a.maxValue = .ok (.number high))
      (hcomputed : ¬ (a.minValue = .number low ∧ a.maxValue = .number high)) :
      OfState a w (.invalidAction (.boundsReversed a.target.plainText low high))

/-- The failures of an action that lie in the action itself: a parameter is missing, a
rule or a level is unknown, its target is no path or an event, or its bounds are
literal and reversed. -/
inductive Structural (a : Action) : Failure → Prop where
  | missingParameter (kind : ActionKind) (parameter : String) :
      Structural a (.invalidAction (.missingParameter kind parameter))
  | unknownRule (rule : String) : Structural a (.invalidAction (.unknownRule rule))
  | unknownLogLevel (level : Value) : Structural a (.invalidAction (.unknownLogLevel level))
  | malformedTarget (hkind : a.kind.isMutating = true ∨ a.kind = .recommend) :
      Structural a (.unknownPath a.target.plainText (some .malformed))
  | eventTarget (path : String) : Structural a (.unknownPath path (some .readOnly))
  | reversed {target : String} {low high : Number} (hlow : a.minValue = .number low)
      (hhigh : a.maxValue = .number high) :
      Structural a (.invalidAction (.boundsReversed target low high))

end Failure

open Document Failure

def Value.AimsAtCell (v : Value) : Prop :=
  ∃ text, v = .text text ∧ (Path.parse? text).any Path.isCell = true

inductive Action.Ready (ruleIds : List String) (a : Action) : Prop where
  | writing (hkind : a.kind = .set ∨ a.kind = .add ∨ a.kind = .recommend)
      (htarget : a.target.AimsAtCell) (hvalue : a.value.isStorable = true)
  | clamping (hkind : a.kind = .clamp) (htarget : a.target.AimsAtCell)
      (hlow : isBound a.minValue = true) (hhigh : isBound a.maxValue = true)
      (hordered : ∀ low high, a.minValue = .number low → a.maxValue = .number high →
        high.lt low = false)
  | triggering (hkind : a.kind = .triggerRule) {id : String} (hrule : a.ruleId = .text id)
      (hid : id ∈ ruleIds)
  | spawning (hkind : a.kind = .spawnEvent) {type : String} (htype : a.eventType = .text type)
      (hsome : type ≠ "")
  | logging (hkind : a.kind = .log) {message : String} (hmessage : a.logMessage = .text message)
      (hsome : message ≠ "")
      (hlevel : a.logLevel = .missing ∨ ∃ level : LogLevel, a.logLevel = .text level.text)
      (htarget : a.target = .missing ∨ ∃ text path, a.target = .text text ∧
        Path.parse? text = some path)

theorem Value.AimsAtCell.plainText {v : Value} (h : v.AimsAtCell) :
    v = .text v.plainText ∧ (Path.parse? v.plainText).any Path.isCell = true := by
  obtain ⟨text, rfl, hcell⟩ := h
  exact ⟨rfl, hcell⟩

section Parameters

variable {ruleIds : List String} {place : String} {a : Action} {r : Record Value} {v : Value}

theorem aimsAtCell_of_isWritablePath (h : isWritablePath v = true) : v.AimsAtCell := by
  unfold isWritablePath at h
  split at h
  · rename_i text
    refine ⟨text, rfl, ?_⟩
    split at h
    · cases h
    · rename_i path hother hparse
      rw [hparse]
      cases path with
      | event eventType key => exact absurd rfl (hother eventType key)
      | agentField | environmentField | metric => rfl
    · cases h
  · cases h

/-- A member that has to be one of several texts is one of them. -/
theorem of_isOneOf {options : List String} (h : isOneOf options v = true) :
    ∃ s ∈ options, v = .text s := by
  unfold isOneOf at h
  split at h
  · exact ⟨_, List.contains_iff_mem.mp h, rfl⟩
  · cases h

/-- A bound that is a number is a finite one. -/
theorem isFinite_of_isBound {n : Number} (h : isBound (.number n) = true) : n.isFinite = true := h

/-- A member that may be left out is missing or as it has to be. -/
theorem missing_or {given : Bool} {message : String}
    (h : problemIf (!v.isMissing && !given) place message = []) : v = .missing ∨ given = true := by
  rw [problemIf_eq_nil_iff] at h
  cases v with
  | missing => exact .inl rfl
  | absent | boolean | number | text | list | record | native | fallback =>
    exact .inr (by simpa [Value.isMissing] using h)

theorem not_wrong {wrong : Bool} {message : String} (h : problemIf (!wrong) place message = []) :
    wrong = true := by
  simpa using (problemIf_eq_nil_iff _ _ _).mp h

theorem ordered_of_clamp (h : parameterProblems .clamp place ruleIds r = []) :
    isWritablePath (r.member "target") = true ∧ isBound (r.member "minValue") = true ∧
      isBound (r.member "maxValue") = true ∧
      ∀ low high, r.member "minValue" = .number low → r.member "maxValue" = .number high →
        high.lt low = false := by
  obtain ⟨hbounds, horder⟩ := List.append_eq_nil_iff.mp h
  obtain ⟨hfirst, hhigh⟩ := List.append_eq_nil_iff.mp hbounds
  obtain ⟨htarget, hlow⟩ := List.append_eq_nil_iff.mp hfirst
  have hlowBound := not_wrong hlow
  have hhighBound := not_wrong hhigh
  refine ⟨not_wrong htarget, hlowBound, hhighBound, ?_⟩
  intro low high hlowNumber hhighNumber
  rw [hlowNumber] at hlowBound
  rw [hhighNumber] at hhighBound
  rw [hlowNumber, hhighNumber] at horder
  simpa [problemIf_eq_nil_iff, isFinite_of_isBound hlowBound, isFinite_of_isBound hhighBound]
    using horder

/-- What the check of an action finds in order. -/
theorem Action.Passes.ready (h : a.Passes ruleIds) : a.Ready ruleIds := by
  obtain ⟨place, hnone⟩ := h
  cases hkind : a.kind with
  | set | add | recommend =>
    rw [hkind] at hnone
    obtain ⟨htarget, hvalue⟩ := List.append_eq_nil_iff.mp hnone
    exact .writing (by simp [hkind]) (aimsAtCell_of_isWritablePath (not_wrong htarget))
      (not_wrong hvalue)
  | clamp =>
    rw [hkind] at hnone
    obtain ⟨htarget, hlow, hhigh, hordered⟩ := ordered_of_clamp hnone
    exact .clamping hkind (aimsAtCell_of_isWritablePath htarget) hlow hhigh hordered
  | triggerRule =>
    rw [hkind] at hnone
    obtain ⟨id, hid, hrule⟩ := of_isOneOf (not_wrong hnone)
    exact .triggering hkind hrule hid
  | spawnEvent =>
    rw [hkind] at hnone
    obtain ⟨hfirst, -⟩ := List.append_eq_nil_iff.mp hnone
    have hword := not_wrong (List.append_eq_nil_iff.mp hfirst).1
    obtain ⟨type, htype, hletters⟩ := (Option.any_eq_true _ _).mp hword
    refine .spawning hkind (Value.text?_eq_some_iff.mp htype) ?_
    rintro rfl
    cases hletters
  | log =>
    rw [hkind] at hnone
    obtain ⟨hfirst, htarget⟩ := List.append_eq_nil_iff.mp hnone
    obtain ⟨hmessage, hlevel⟩ := List.append_eq_nil_iff.mp hfirst
    obtain ⟨message, htext, hletters⟩ := (Option.any_eq_true _ _).mp (not_wrong hmessage)
    refine .logging hkind (Value.text?_eq_some_iff.mp htext) ?_ ?_ ?_
    · rintro rfl
      cases hletters
    · refine (missing_or hlevel).imp_right fun hgiven => ?_
      obtain ⟨s, hs, hlevel⟩ := of_isOneOf hgiven
      obtain ⟨level, -, rfl⟩ := List.mem_map.mp hs
      exact ⟨level, hlevel⟩
    · refine (missing_or htarget).imp_right fun hgiven => ?_
      obtain ⟨text, htext, hpath⟩ := (Option.any_eq_true _ _).mp hgiven
      obtain ⟨path, hparse⟩ := Option.isSome_iff_exists.mp hpath
      exact ⟨text, path, Value.text?_eq_some_iff.mp htext, hparse⟩

end Parameters

section Deeds

variable {ruleIds : List String} {a : Action} {w : World} {known : String → Bool} {rule : Rule}
  {failure : Failure}

theorem Failure.OfState.of_refuses (h : w.Refuses failure) : failure.OfState a w := by
  cases h with
  | noAgent fault hagent => exact .noAgent fault hagent
  | mismatch cause => exact .mismatch cause

/-- A text that is read is a path. -/
theorem Failure.OfState.of_read {text : String} (hpath : isFieldPath text = true)
    (h : w.read text = .error failure) : failure.OfState a w := by
  rcases World.error_of_require h with ⟨hnone, -⟩ | ⟨path, -, hread⟩
  · rw [isFieldPath, hnone] at hpath
    cases hpath
  · exact .unread hread

theorem Failure.OfState.of_resolve {raw : Value} (hraw : raw ∈ a.operands)
    (h : w.resolve raw = .error failure) : failure.OfState a w := by
  unfold World.resolve at h
  split at h
  · split at h
    · rename_i body hbody
      cases hfails : Expression.evaluate (Text.trim body) w with
      | error first =>
        rw [hfails] at h
        cases h
        exact .expression hraw hbody hfails
      | ok n =>
        rw [hfails] at h
        cases h
    · split at h
      · rename_i hpath
        exact .of_read hpath h
      · cases h
  · cases h

theorem Failure.OfState.of_requireNumber {what : Quantity} {v : Value}
    (h : Action.requireNumber what v = .error failure) : failure.OfState a w := by
  unfold Action.requireNumber at h
  split at h
  · split at h
    · cases h
      exact .mismatch _
    · cases h
  · cases h
    exact .mismatch _

/-- What goes through as a number is one. -/
theorem numeric_of_requireNumber {what : Quantity} {v : Value} {n : Number}
    (h : Action.requireNumber what v = .ok n) : v = .number n ∧ n.isNaN = false := by
  unfold Action.requireNumber at h
  split at h
  · split at h
    · cases h
    · rename_i hnumber
      cases h
      exact ⟨rfl, by simpa using hnumber⟩
  · cases h

/-- A parameter that is a text of some letters is there. -/
theorem require_of_text {name s : String} (htext : a.parameter name = .text s) (hsome : s ≠ "") :
    a.require name = .ok (.text s) := by
  unfold Action.require
  rw [htext]
  split
  · contradiction
  · contradiction
  · rename_i hempty
    cases hempty
    exact absurd rfl hsome
  · rfl

theorem requireText_target {text : String} (htext : a.target = .text text)
    (hcell : (Path.parse? text).any Path.isCell = true) :
    a.requireText "target" = .ok text := by
  have hempty : Path.parse? "" = none := by decide +kernel
  have hsome : text ≠ "" := by
    rintro rfl
    rw [hempty] at hcell
    cases hcell
  rw [Action.requireText, require_of_text htext hsome]
  rfl

theorem requireValue_of_isStorable (hvalue : a.value.isStorable = true) :
    a.requireValue = .ok a.value := by
  unfold Action.requireValue
  split
  · rename_i hmissing
    rw [hmissing] at hvalue
    cases hvalue
  · rename_i habsent
    rw [habsent] at hvalue
    cases hvalue
  · rfl

theorem require_of_isBound {name : String} (hbound : isBound (a.parameter name) = true) :
    a.require name = .ok (a.parameter name) := by
  unfold Action.require
  dsimp only
  split
  · rename_i hmissing
    rw [hmissing] at hbound
    cases hbound
  · rename_i habsent
    rw [habsent] at hbound
    cases hbound
  · rename_i hempty
    have hnone : isBound (.text "") = false := by decide +kernel
    rw [hempty, hnone] at hbound
    cases hbound
  · rfl

/-- The actions that give a value begin alike: unless the world is at fault there, they go
on with the path of the target, with what is held there and with what the value amounts to. -/
theorem ofState_or_goesOn {α : Type} {rest : String → Value → Value → Except Failure α}
    (htarget : a.target.AimsAtCell) (hvalue : a.value.isStorable = true)
    (h : (do
      let target ← a.requireText "target"
      let raw ← a.requireValue
      let before ← w.current target
      let value ← w.resolve raw
      rest target before value) = .error failure) :
    failure.OfState a w ∨ ∃ before value, w.resolve a.value = .ok value ∧
      rest a.target.plainText before value = .error failure := by
  obtain ⟨htext, hcell⟩ := htarget.plainText
  rw [requireText_target htext hcell, requireValue_of_isStorable hvalue] at h
  rcases error_of_bind h with hfails | ⟨_, hok, h⟩
  · cases hfails
  cases hok
  rcases error_of_bind h with hfails | ⟨_, hok, h⟩
  · cases hfails
  cases hok
  rcases error_of_bind h with hfails | ⟨before, -, h⟩
  · exact .inl (.of_refuses (World.refuses_of_current hcell hfails))
  rcases error_of_bind h with hfails | ⟨value, hresolved, h⟩
  · exact .inl (.of_resolve List.mem_cons_self hfails)
  exact .inr ⟨before, value, hresolved, h⟩

theorem ofState_ofSet (htarget : a.target.AimsAtCell) (hvalue : a.value.isStorable = true)
    (h : Deed.ofSet a w = .error failure) : failure.OfState a w := by
  unfold Deed.ofSet at h
  rcases ofState_or_goesOn htarget hvalue h with hstate | ⟨before, value, hresolved, h⟩
  · exact hstate
  · split at h
    · rename_i habsent
      cases h
      refine .absent ?_
      cases value with
      | absent => exact hresolved
      | missing | boolean | number | text | list | record | native | fallback => cases habsent
    · cases h

theorem ofState_ofAdd (htarget : a.target.AimsAtCell) (hvalue : a.value.isStorable = true)
    (h : Deed.ofAdd a w = .error failure) : failure.OfState a w := by
  unfold Deed.ofAdd at h
  rcases ofState_or_goesOn htarget hvalue h with hstate | ⟨before, resolved, -, h⟩
  · exact hstate
  rcases error_of_bind h with hfails | ⟨addend, -, h⟩
  · exact .of_requireNumber hfails
  dsimp only at h
  split at h
  · cases h
  · rcases error_of_bind h with hfails | ⟨base, -, h⟩
    · exact .of_requireNumber hfails
    · cases h

theorem ofState_ofRecommend (htarget : a.target.AimsAtCell) (hvalue : a.value.isStorable = true)
    (h : Deed.ofRecommend a w = .error failure) : failure.OfState a w := by
  unfold Deed.ofRecommend at h
  rcases ofState_or_goesOn htarget hvalue h with hstate | ⟨before, value, -, h⟩
  · exact hstate
  · cases h

/-- Bounds that are both literal are in order, so those that come out reversed are not. -/
theorem ofState_ofClamp (htarget : a.target.AimsAtCell) (hlow : isBound a.minValue = true)
    (hhigh : isBound a.maxValue = true)
    (hordered : ∀ low high, a.minValue = .number low → a.maxValue = .number high →
      high.lt low = false)
    (h : Deed.ofClamp a w = .error failure) : failure.OfState a w := by
  obtain ⟨htext, hcell⟩ := htarget.plainText
  unfold Deed.ofClamp at h
  rw [requireText_target htext hcell, require_of_isBound hlow, require_of_isBound hhigh] at h
  rcases error_of_bind h with hfails | ⟨_, hok, h⟩
  · cases hfails
  cases hok
  rcases error_of_bind h with hfails | ⟨_, hok, h⟩
  · cases hfails
  cases hok
  rcases error_of_bind h with hfails | ⟨lowValue, hlowValue, h⟩
  · exact .of_resolve (List.mem_cons_of_mem _ List.mem_cons_self) hfails
  rcases error_of_bind h with hfails | ⟨low, hlowNumber, h⟩
  · exact .of_requireNumber hfails
  rcases error_of_bind h with hfails | ⟨_, hok, h⟩
  · cases hfails
  cases hok
  rcases error_of_bind h with hfails | ⟨highValue, hhighValue, h⟩
  · exact .of_resolve
      (List.mem_cons_of_mem _ (List.mem_cons_of_mem _ List.mem_cons_self)) hfails
  rcases error_of_bind h with hfails | ⟨high, hhighNumber, h⟩
  · exact .of_requireNumber hfails
  split at h
  · rename_i hreversed
    cases h
    rw [(numeric_of_requireNumber hlowNumber).1] at hlowValue
    rw [(numeric_of_requireNumber hhighNumber).1] at hhighValue
    refine .reversed hlowValue hhighValue ?_
    rintro ⟨hliteralLow, hliteralHigh⟩
    rw [hordered low high hliteralLow hliteralHigh] at hreversed
    cases hreversed
  · rcases error_of_bind h with hfails | ⟨before, -, h⟩
    · exact .of_refuses (World.refuses_of_current hcell hfails)
    rcases error_of_bind h with hfails | ⟨held, -, h⟩
    · exact .of_requireNumber hfails
    cases h

/-- A trigger that has passed cannot fail where the rules are known. -/
theorem ofTrigger_succeeds {id : String} (hrule : a.ruleId = .text id) (hsome : id ≠ "")
    (hknown : known id = true) : Deed.ofTrigger known a = .ok (.trigger id) := by
  unfold Deed.ofTrigger
  rw [require_of_text hrule hsome]
  simp only [bind, Except.bind, Value.text?, Option.filter_some, hknown, if_true]

theorem error_of_payload {done : Record Value} {entries : List (String × Value)}
    (h : Deed.payload w done entries = .error failure) :
    ∃ entry ∈ entries, w.resolve entry.2 = .error failure := by
  induction entries generalizing done with
  | nil => cases h
  | cons entry rest ih =>
    unfold Deed.payload at h
    split at h
    · rename_i hfails
      cases h
      exact ⟨entry, List.mem_cons_self, hfails⟩
    · obtain ⟨other, hother, hfails⟩ := ih h
      exact ⟨other, List.mem_cons_of_mem _ hother, hfails⟩
    · obtain ⟨other, hother, hfails⟩ := ih h
      exact ⟨other, List.mem_cons_of_mem _ hother, hfails⟩

theorem ofState_ofSpawn {type : String} (htype : a.eventType = .text type) (hsome : type ≠ "")
    (h : Deed.ofSpawn rule a w = .error failure) : failure.OfState a w := by
  unfold Deed.ofSpawn at h
  rw [require_of_text htype hsome] at h
  rcases error_of_bind h with hfails | ⟨_, -, h⟩
  · cases hfails
  rcases error_of_bind h with hfails | ⟨_, -, h⟩
  · obtain ⟨entry, hentry, hunresolved⟩ := error_of_payload hfails
    refine .of_resolve ?_ hunresolved
    exact List.mem_cons_of_mem _ (List.mem_cons_of_mem _ (List.mem_cons_of_mem _
      (List.mem_map_of_mem hentry)))
  · cases h

theorem levelOf_succeeds
    (hlevel : a.logLevel = .missing ∨ ∃ level : LogLevel, a.logLevel = .text level.text) :
    ∃ level, Deed.levelOf a = .ok level := by
  unfold Deed.levelOf
  rcases hlevel with hmissing | ⟨level, htext⟩
  · rw [hmissing]
    exact ⟨.info, rfl⟩
  · rw [htext]
    cases level with
    | debug | info | warning | error => exact ⟨_, rfl⟩

theorem ofState_ofLog {message : String} (hmessage : a.logMessage = .text message)
    (hsome : message ≠ "")
    (hlevel : a.logLevel = .missing ∨ ∃ level : LogLevel, a.logLevel = .text level.text)
    (htarget : a.target = .missing ∨ ∃ text path, a.target = .text text ∧
      Path.parse? text = some path)
    (h : Deed.ofLog a w = .error failure) : failure.OfState a w := by
  obtain ⟨level, hlevelOf⟩ := levelOf_succeeds hlevel
  unfold Deed.ofLog at h
  rw [require_of_text hmessage hsome, hlevelOf] at h
  rcases error_of_bind h with hfails | ⟨_, -, h⟩
  · cases hfails
  rcases error_of_bind h with hfails | ⟨_, -, h⟩
  · cases hfails
  rcases htarget with hmissing | ⟨text, path, htext, hparse⟩
  · rw [hmissing] at h
    cases h
  · rw [htext] at h
    split at h
    · rcases error_of_bind h with hfails | ⟨_, -, h⟩
      · have hpath : isFieldPath text = true := by
          rw [isFieldPath, hparse]
          rfl
        exact .of_read hpath hfails
      · cases h
    · cases h

/-- No deed of an action that has passed fails but for the state of the world. -/
theorem ofState_ofAction (hready : a.Ready ruleIds) (hsome : "" ∉ ruleIds)
    (hknown : ∀ id ∈ ruleIds, known id = true)
    (h : Deed.ofAction known rule a w = .error failure) : failure.OfState a w := by
  unfold Deed.ofAction at h
  cases hready with
  | writing hkind htarget hvalue =>
    rcases hkind with hkind | hkind | hkind
    · rw [hkind] at h
      exact ofState_ofSet htarget hvalue h
    · rw [hkind] at h
      exact ofState_ofAdd htarget hvalue h
    · rw [hkind] at h
      exact ofState_ofRecommend htarget hvalue h
  | clamping hkind htarget hlow hhigh hordered =>
    rw [hkind] at h
    exact ofState_ofClamp htarget hlow hhigh hordered h
  | @triggering hkind id hrule hid =>
    rw [hkind] at h
    have hnonempty : id ≠ "" := by
      rintro rfl
      exact hsome hid
    have hdeed := ofTrigger_succeeds hrule hnonempty (hknown id hid)
    dsimp only at h
    rw [hdeed] at h
    cases h
  | spawning hkind htype hnonempty =>
    rw [hkind] at h
    exact ofState_ofSpawn htype hnonempty h
  | logging hkind hmessage hnonempty hlevel htarget =>
    rw [hkind] at h
    exact ofState_ofLog hmessage hnonempty hlevel htarget h

end Deeds

/-- An action that has passed and needs a target has the text of a path to a cell. -/
theorem Action.Ready.aims {ruleIds : List String} {a : Action} (hready : a.Ready ruleIds)
    (hneeds : a.kind.isMutating = true ∨ a.kind = .recommend) : a.target.AimsAtCell := by
  cases hready with
  | writing _ htarget => exact htarget
  | clamping _ htarget => exact htarget
  | triggering hkind | spawning hkind | logging hkind =>
    rw [hkind] at hneeds
    rcases hneeds with hmutating | hother
    · cases hmutating
    · cases hother

/-- What an expression is at a loss for is never what its action aims at. -/
theorem not_structural_of_evaluate {ruleIds : List String} {a : Action} {w : World}
    {source : String} {failure : Failure} (hready : a.Ready ruleIds)
    (h : Expression.evaluate source w = .error failure) : ¬ failure.Structural a := by
  intro hstructural
  cases Expression.fails_evaluate h with
  | unread hread =>
    rcases World.error_of_require hread with ⟨hnone, rfl⟩ | ⟨path, -, hat⟩
    · cases hstructural with
      | malformedTarget hneeds =>
        have hcell := (hready.aims hneeds).plainText.2
        rw [hnone] at hcell
        cases hcell
    · rcases World.gap_of_readAt hat with ⟨fault, rfl, hgap⟩ | ⟨fault, rfl⟩
      · generalize path.render = text at hstructural
        cases hstructural with
        | malformedTarget | eventTarget => cases hgap
      · cases hstructural
  | unexpectedCharacter | trailingInput | divisionByZero | unexpectedEnd | missingParenthesis
  | unexpectedToken | emptyExpression | notNumeric => cases hstructural

/-- No failure lies in the state of the world and in the action as well. -/
theorem Failure.OfState.not_structural {ruleIds : List String} {a : Action} {w : World}
    {failure : Failure} (hready : a.Ready ruleIds) (h : failure.OfState a w) :
    ¬ failure.Structural a := by
  cases h with
  | mismatch | absent =>
    intro hstructural
    cases hstructural
  | noAgent =>
    intro hstructural
    unfold World.noAgent at hstructural
    split at hstructural <;> cases hstructural
  | @unread path _ hread =>
    intro hstructural
    rcases World.gap_of_readAt hread with ⟨fault, rfl, hgap⟩ | ⟨fault, rfl⟩
    · generalize path.render = text at hstructural
      cases hstructural with
      | malformedTarget | eventTarget => cases hgap
    · cases hstructural
  | reversed _ _ hcomputed =>
    intro hstructural
    cases hstructural with
    | reversed hlow hhigh => exact hcomputed ⟨hlow, hhigh⟩
  | expression _ _ hfails => exact not_structural_of_evaluate hready hfails

namespace Stage

variable {s : Stage} {ruleIds : List String} {a : Action} {known : String → Bool} {rule : Rule}
  {failure : Failure}

/-- No action that has passed fails but for the state of the world. -/
theorem ofState_of_failed (hready : a.Ready ruleIds) (hsome : "" ∉ ruleIds)
    (hknown : ∀ id ∈ ruleIds, known id = true)
    (h : (s.execute known rule a).result = .error failure) : failure.OfState a s.world := by
  unfold execute at h
  cases hdeed : Deed.ofAction known rule a s.world with
  | error first =>
    rw [hdeed] at h
    cases h
    exact ofState_ofAction hready hsome hknown hdeed
  | ok deed =>
    simp only [hdeed] at h
    cases Deed.of_ofAction hdeed with
    | recommend | trigger | spawn | log => cases h
    | write hkind =>
      have hcell := (hready.aims (.inl hkind)).plainText.2
      exact .of_refuses (World.refuses_of_ledger hcell rfl (error_of_map h))

end Stage

end Harbormaster
