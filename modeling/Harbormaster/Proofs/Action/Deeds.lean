import Harbormaster.Action.Execution

/-!
What the deed of an action is like. A mutating action amounts to a write at its
target, with the value that the target holds now and a value to write that is
something: a number that was worked out, or what the operand of the action stands
for. Any other action amounts to no write.
-/

namespace Harbormaster

theorem ok_of_bind {α β : Type} {x : Except Failure α} {f : α → Except Failure β} {b : β}
    (h : x >>= f = .ok b) : ∃ a, x = .ok a ∧ f a = .ok b := by
  cases x with
  | error failure => cases h
  | ok a => exact ⟨a, rfl, h⟩

namespace Deed

inductive Of (a : Action) (w : World) : Deed → Prop where
  | write {value : Value} {range : Option ClampRange} {before : Value} {message : String}
      (hkind : a.kind.isMutating = true)
      (hbefore : w.current a.target.plainText = .ok before) (hvalue : value ≠ .absent)
      (hsource : (∃ n, value = .number n) ∨
        ∃ raw, a.requireValue = .ok raw ∧ w.resolve raw = .ok value) :
      Of a w (.write a.target.plainText value range before message)
  | recommend {target : String} {value current : Value} (hkind : a.kind.isMutating = false) :
      Of a w (.recommend target value current)
  | trigger {rule : String} (hkind : a.kind.isMutating = false) (hasks : a.kind = .triggerRule) :
      Of a w (.trigger rule)
  | spawn {rule : String} {eventType : Value} {members : Record Value}
      (hkind : a.kind.isMutating = false) (htype : a.require "eventType" = .ok eventType)
      (hpayload : payload w ∅ a.eventPayload.members.entries = .ok members)
      (hspawns : a.kind = .spawnEvent) :
      Of a w (.spawn ⟨eventType, rule, members, a.eventSeverity⟩)
  | log {entry : LogEntry} (hkind : a.kind.isMutating = false) : Of a w (.log entry)

variable {a : Action} {w : World} {deed : Deed}

theorem eq_of_require {name : String} {v : Value} (h : a.require name = .ok v) :
    v = a.parameter name := by
  unfold Action.require at h
  dsimp only at h
  split at h
  · cases h
  · cases h
  · cases h
  · cases h
    rfl

theorem eq_of_requireText {name text : String} (h : a.requireText name = .ok text) :
    text = (a.parameter name).plainText := by
  unfold Action.requireText at h
  cases hrequire : a.require name with
  | error failure =>
    rw [hrequire] at h
    cases h
  | ok v =>
    rw [hrequire] at h
    cases h
    rw [eq_of_require hrequire]

theorem of_ofSet (hkind : a.kind.isMutating = true) (h : ofSet a w = .ok deed) : Of a w deed := by
  unfold ofSet at h
  obtain ⟨target, htarget, h⟩ := ok_of_bind h
  obtain ⟨raw, hraw, h⟩ := ok_of_bind h
  obtain ⟨before, hbefore, h⟩ := ok_of_bind h
  obtain ⟨value, hresolved, h⟩ := ok_of_bind h
  have heq : target = a.target.plainText := eq_of_requireText htarget
  subst heq
  split at h
  · cases h
  · rename_i habsent
    cases h
    refine .write hkind hbefore ?_ (.inr ⟨raw, hraw, hresolved⟩)
    rintro rfl
    exact habsent rfl

theorem of_ofAdd (hkind : a.kind.isMutating = true) (h : ofAdd a w = .ok deed) : Of a w deed := by
  unfold ofAdd at h
  obtain ⟨target, htarget, h⟩ := ok_of_bind h
  obtain ⟨raw, -, h⟩ := ok_of_bind h
  obtain ⟨before, hbefore, h⟩ := ok_of_bind h
  obtain ⟨resolved, -, h⟩ := ok_of_bind h
  obtain ⟨addend, -, h⟩ := ok_of_bind h
  have heq : target = a.target.plainText := eq_of_requireText htarget
  subst heq
  dsimp only at h
  split at h
  · obtain ⟨base, -, h⟩ := ok_of_bind h
    cases h
    exact .write hkind hbefore Value.noConfusion (.inl ⟨_, rfl⟩)
  · obtain ⟨base, -, h⟩ := ok_of_bind h
    cases h
    exact .write hkind hbefore Value.noConfusion (.inl ⟨_, rfl⟩)

theorem of_ofClamp (hkind : a.kind.isMutating = true) (h : ofClamp a w = .ok deed) :
    Of a w deed := by
  unfold ofClamp at h
  obtain ⟨target, htarget, h⟩ := ok_of_bind h
  obtain ⟨lowRaw, -, h⟩ := ok_of_bind h
  obtain ⟨lowValue, -, h⟩ := ok_of_bind h
  obtain ⟨low, -, h⟩ := ok_of_bind h
  obtain ⟨highRaw, -, h⟩ := ok_of_bind h
  obtain ⟨highValue, -, h⟩ := ok_of_bind h
  obtain ⟨high, -, h⟩ := ok_of_bind h
  have heq : target = a.target.plainText := eq_of_requireText htarget
  subst heq
  split at h
  · cases h
  · obtain ⟨before, hbefore, h⟩ := ok_of_bind h
    obtain ⟨held, -, h⟩ := ok_of_bind h
    cases h
    exact .write hkind hbefore Value.noConfusion (.inl ⟨_, rfl⟩)

theorem of_ofRecommend (hkind : a.kind.isMutating = false) (h : ofRecommend a w = .ok deed) :
    Of a w deed := by
  unfold ofRecommend at h
  obtain ⟨target, -, h⟩ := ok_of_bind h
  obtain ⟨raw, -, h⟩ := ok_of_bind h
  obtain ⟨current, -, h⟩ := ok_of_bind h
  obtain ⟨value, -, h⟩ := ok_of_bind h
  cases h
  exact .recommend hkind

theorem of_ofTrigger {known : String → Bool} (hkind : a.kind = .triggerRule)
    (h : ofTrigger known a = .ok deed) : Of a w deed := by
  unfold ofTrigger at h
  obtain ⟨rule, -, h⟩ := ok_of_bind h
  split at h
  · cases h
    exact .trigger (by rw [hkind]; rfl) hkind
  · cases h

theorem of_ofSpawn {rule : Rule} (hkind : a.kind = .spawnEvent)
    (h : ofSpawn rule a w = .ok deed) : Of a w deed := by
  unfold ofSpawn at h
  obtain ⟨eventType, htype, h⟩ := ok_of_bind h
  obtain ⟨members, hpayload, h⟩ := ok_of_bind h
  cases h
  exact .spawn (by rw [hkind]; rfl) htype hpayload hkind

theorem of_ofLog (hkind : a.kind.isMutating = false) (h : ofLog a w = .ok deed) :
    Of a w deed := by
  unfold ofLog at h
  obtain ⟨message, -, h⟩ := ok_of_bind h
  obtain ⟨level, -, h⟩ := ok_of_bind h
  split at h
  · obtain ⟨value, -, h⟩ := ok_of_bind h
    cases h
    exact .log hkind
  · cases h
    exact .log hkind

theorem of_ofAction {known : String → Bool} {rule : Rule}
    (h : ofAction known rule a w = .ok deed) : Of a w deed := by
  unfold ofAction at h
  cases hkind : a.kind with
  | set =>
    rw [hkind] at h
    exact of_ofSet (by rw [hkind]; rfl) h
  | add =>
    rw [hkind] at h
    exact of_ofAdd (by rw [hkind]; rfl) h
  | clamp =>
    rw [hkind] at h
    exact of_ofClamp (by rw [hkind]; rfl) h
  | recommend =>
    rw [hkind] at h
    exact of_ofRecommend (by rw [hkind]; rfl) h
  | triggerRule =>
    rw [hkind] at h
    exact of_ofTrigger hkind h
  | spawnEvent =>
    rw [hkind] at h
    exact of_ofSpawn hkind h
  | log =>
    rw [hkind] at h
    exact of_ofLog (by rw [hkind]; rfl) h

end Deed

end Harbormaster
