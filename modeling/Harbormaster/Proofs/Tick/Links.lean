import Harbormaster.Proofs.Tick.Requests

/-!
Who asked for whom. A link between two rules is written twice: by the rule that asks,
when its request is accepted, and by the rule that was asked for, when it has its turn.
In between the rule may have its turn for another reason, and then the rule that asked
is told so; or chaining is halted, and then nothing more is said here. The order in which
the rules have their turns is not looked at, but that the cause comes first.
-/

namespace Harbormaster

structure Draft.AsksFor (p : Draft) (target : String) : Prop where
  triggered : p.outcome.triggered = true
  listed : target ∈ p.triggeredRules
  requests : ∃ a ∈ p.applications, a.Requests target

theorem Draft.AsksFor.annotates {p : Draft} {target : String} (h : p.AsksFor target)
    {g : Draft → Draft} (hg : Draft.Annotates g) : (g p).AsksFor target := by
  refine ⟨?_, ?_, ?_⟩
  · rw [hg.outcome]
    exact h.triggered
  · rw [hg.triggeredRules]
    exact h.listed
  · rw [hg.applications]
    exact h.requests

theorem append_cons_eq_concat {α : Type} {items former later : List α} {item last : α}
    (h : items ++ [last] = former ++ item :: later) :
    (items = former ∧ last = item) ∨ ∃ rest, items = former ++ item :: rest := by
  rcases List.eq_nil_or_concat later with rfl | ⟨rest, final, rfl⟩
  · obtain ⟨hitems, hlast⟩ := List.append_inj' h rfl
    exact .inl ⟨hitems, List.singleton_inj.mp hlast⟩
  · rw [List.concat_eq_append, ← List.cons_append, ← List.append_assoc] at h
    exact .inr ⟨rest, (List.append_inj' h rfl).1⟩

namespace Tick

variable {r : TickRules} {rules waiting : List Rule} {source entry : QueueEntry} {rule : Rule}
  {t t' : Tick} {queue rest scheduled : List QueueEntry} {p d : Draft} {target : String}

inductive Answered (t : Tick) (queue : List QueueEntry) (p : Draft) (target : String) : Prop where
  /-- The rule had its turn for it. -/
  | evaluated {c : Draft} (hmember : c ∈ t.drafts) (hid : c.rule.id = target)
      (hcause : c.triggeredBy = .text p.rule.id)
  /-- The rule had had its turn before. -/
  | ignored (hnote : ignoredNote target ∈ p.sideEffects)
  | halted (hhalted : t.overflow ≠ none)
  | queued {entry : QueueEntry} (hmember : entry ∈ queue) (hid : entry.ruleId = target)
      (hcause : entry.triggeredBy = some p.rule.id)

/-- Drafts in which the links between rules agree, with the requests that wait. -/
structure Linked (t : Tick) (queue : List QueueEntry) : Prop where
  asked : ∀ former c later, t.drafts = former ++ c :: later →
    c.triggeredBy = .absent ∨
      ∃ p ∈ former, c.triggeredBy = .text p.rule.id ∧ p.AsksFor c.rule.id
  waits : ∀ entry ∈ queue, ∀ id, entry.triggeredBy = some id →
    ∃ p ∈ t.drafts, p.rule.id = id ∧ p.AsksFor entry.ruleId
  answered : ∀ p ∈ t.drafts, ∀ target ∈ p.triggeredRules, Answered t queue p target
  once : ∀ d ∈ t.drafts, d.triggeredRules.Nodup ∧ d.rule.id ∉ d.triggeredRules

/-- The rule that asked in vain is told so. -/
theorem noteIgnored_notes (t : Tick) (entry : QueueEntry) :
    ∃ g, Draft.AddsNotes g ∧ t.noteIgnored entry = { t with drafts := t.drafts.map g } ∧
      ∀ d, entry.triggeredBy = some d.rule.id → ignoredNote entry.ruleId ∈ (g d).sideEffects := by
  unfold noteIgnored
  split
  · rename_i source hsource
    refine ⟨_, Draft.addsNotes_ite (Draft.addsNotes_addSideEffect _) (·.rule.id = source), rfl, ?_⟩
    intro d hd
    have hown : d.rule.id = source := (Option.some.inj (hsource.symm.trans hd)).symm
    simp [hown, Draft.addSideEffect]
  · rename_i hsource
    refine ⟨_, Draft.addsNotes_id, by simp, ?_⟩
    intro d hd
    rw [hsource] at hd
    cases hd

namespace Linked

/-- Notes leave the links of rules as they are, where no request is lost. -/
theorem map (h : Linked t queue) {g : Draft → Draft} (hg : Draft.AddsNotes g)
    (hdrafts : t'.drafts = t.drafts.map g) (hoverflow : t'.overflow = t.overflow)
    (hrest : rest ⊆ queue)
    (hkept : ∀ entry ∈ queue, entry ∈ rest ∨
      ∀ d, entry.triggeredBy = some d.rule.id → ignoredNote entry.ruleId ∈ (g d).sideEffects) :
    Linked t' rest := by
  have hnotes := hg.annotates
  constructor
  · intro former c later hsplit
    rw [hdrafts] at hsplit
    obtain ⟨former, others, hbefore, rfl, hothers⟩ := List.map_eq_append_iff.mp hsplit
    obtain ⟨c, later, rfl, rfl, -⟩ := List.map_eq_cons_iff.mp hothers
    rw [hnotes.triggeredBy, hnotes.rule]
    refine (h.asked former c later hbefore).imp_right ?_
    rintro ⟨p, hp, hcause, hasks⟩
    exact ⟨g p, List.mem_map_of_mem hp, by rw [hcause, hnotes.rule], hasks.annotates hnotes⟩
  · intro entry hentry id hid
    obtain ⟨p, hp, hown, hasks⟩ := h.waits entry (hrest hentry) id hid
    refine ⟨g p, ?_, by rw [hnotes.rule, hown], hasks.annotates hnotes⟩
    rw [hdrafts]
    exact List.mem_map_of_mem hp
  · intro _ hmember target htarget
    rw [hdrafts] at hmember
    obtain ⟨p, hp, rfl⟩ := List.mem_map.mp hmember
    rw [hnotes.triggeredRules] at htarget
    cases h.answered p hp target htarget with
    | @evaluated c hc hid hcause =>
      refine .evaluated (c := g c) ?_ (by rw [hnotes.rule, hid]) ?_
      · rw [hdrafts]
        exact List.mem_map_of_mem hc
      · rw [hnotes.triggeredBy, hnotes.rule, hcause]
    | ignored hnote => exact .ignored (hg.sideEffects p hnote)
    | halted hhalted => exact .halted (hoverflow ▸ hhalted)
    | @queued entry hentry hid hcause =>
      rcases hkept entry hentry with hleft | hnoted
      · exact .queued hleft hid (by rw [hnotes.rule, hcause])
      · exact .ignored (hid ▸ hnoted p hcause)
  · intro _ hmember
    rw [hdrafts] at hmember
    obtain ⟨d, hd, rfl⟩ := List.mem_map.mp hmember
    rw [hnotes.triggeredRules, hnotes.rule]
    exact h.once d hd

theorem skip (h : Linked t (entry :: rest)) : Linked (t.noteIgnored entry) rest := by
  obtain ⟨g, hg, heq, hnotes⟩ := t.noteIgnored_notes entry
  rw [heq]
  refine h.map hg rfl rfl (List.subset_cons_self _ _) ?_
  intro other hother
  rcases List.mem_cons.mp hother with rfl | hrest
  · exact .inr hnotes
  · exact .inl hrest

/-- A turn may halt chaining, but never takes it up again. -/
theorem overflow_of_attends (hd : Attends r waiting source rule t t' scheduled d)
    (hhalted : t.overflow ≠ none) : t'.overflow ≠ none := by
  intro hopen
  have hcourse := hd.halts
  rw [hopen] at hcourse
  exact hhalted hcourse.eq_none

/-- A request that waited is answered when its rule has had its turn. -/
theorem answered_of_former (hd : Attends r waiting source rule t t' scheduled d)
    (hname : d.rule.id = source.ruleId) {g : Draft → Draft}
    (hdrafts : t'.drafts = t.drafts.map g ++ [d])
    (h : Answered { t with drafts := t.drafts.map g } (source :: rest) p target) :
    Answered t' (t'.queueAfter scheduled rest) p target := by
  by_cases hopen : t'.halted = false
  · rw [queueAfter_of_open hopen]
    cases h with
    | evaluated hc hid hcause =>
      exact .evaluated (hdrafts ▸ List.mem_append_left _ hc) hid hcause
    | ignored hnote => exact .ignored hnote
    | halted hhalted =>
      exact absurd (by simpa [halted] using hopen) (overflow_of_attends hd hhalted)
    | queued hentry hid hcause =>
      rcases List.mem_cons.mp hentry with rfl | hrest
      · exact .evaluated (by simp [hdrafts]) (hname.trans hid) (by rw [hd.triggeredBy, hcause]; rfl)
      · exact .queued (List.mem_append_right _ hrest) hid hcause
  · exact .halted (by simpa [halted] using hopen)

/-- What a rule asks for in its turn waits to be answered. -/
theorem answered_of_own (hd : Attends r waiting source rule t t' scheduled d)
    (hname : d.rule.id = source.ruleId) (htarget : target ∈ d.triggeredRules) :
    Answered t' (t'.queueAfter scheduled rest) d target := by
  by_cases hopen : t'.halted = false
  · rw [queueAfter_of_open hopen]
    rw [hd.triggeredRules] at htarget
    obtain ⟨entry, hscheduled, hid⟩ := List.mem_map.mp htarget
    refine .queued (List.mem_append_left _ hscheduled) hid ?_
    rw [(hd.accepted entry hscheduled).1, hname]
    rfl
  · exact .halted (by simpa [halted] using hopen)

/-- The draft of a rule asks for what the rule has scheduled. -/
theorem asksFor_of_attends (hd : Attends r waiting source rule t t' scheduled d)
    (hfired : scheduled ≠ [] → d.outcome.triggered = true) (hentry : entry ∈ scheduled) :
    d.AsksFor entry.ruleId := by
  refine ⟨hfired (List.ne_nil_of_mem hentry), ?_, hd.requests entry hentry⟩
  rw [hd.triggeredRules]
  exact List.mem_map_of_mem hentry

theorem turn (h : Linked t (source :: rest)) (hd : Attends r waiting source rule t t' scheduled d)
    (hfired : scheduled ≠ [] → d.outcome.triggered = true) (hsource : source.ruleId = rule.id)
    (hown : rule.id ∉ waiting.map (·.id)) : Linked t' (t'.queueAfter scheduled rest) := by
  obtain ⟨g, hg, hdrafts⟩ := hd.drafts
  have hnoted : Linked { t with drafts := t.drafts.map g } (source :: rest) :=
    h.map hg rfl rfl (List.Subset.refl _) fun _ => .inl
  have hname : d.rule.id = source.ruleId := by rw [hd.own, hsource]
  have hlast : d ∈ t'.drafts := by
    rw [hdrafts]
    exact List.mem_append_right _ (List.mem_singleton.mpr rfl)
  have hformer : t.drafts.map g ⊆ t'.drafts := by
    rw [hdrafts]
    exact List.subset_append_left _ _
  constructor
  · intro former c later hsplit
    rw [hdrafts] at hsplit
    rcases append_cons_eq_concat hsplit with ⟨rfl, rfl⟩ | ⟨others, hbefore⟩
    · rw [hd.triggeredBy, hname]
      cases hcause : source.triggeredBy with
      | none => exact .inl rfl
      | some id =>
        obtain ⟨p, hp, rfl, hasks⟩ := hnoted.waits source List.mem_cons_self id hcause
        exact .inr ⟨p, hp, rfl, hasks⟩
    · exact hnoted.asked former c others hbefore
  · intro entry hentry id hid
    rcases mem_of_queueAfter hentry with hscheduled | hrest
    · have hcause : some source.ruleId = some id := by
        rw [← hid, (hd.accepted entry hscheduled).1]
        rfl
      exact ⟨d, hlast, hname.trans (Option.some.inj hcause),
        asksFor_of_attends hd hfired hscheduled⟩
    · obtain ⟨p, hp, hbelow⟩ := hnoted.waits entry (List.mem_cons_of_mem _ hrest) id hid
      exact ⟨p, hformer hp, hbelow⟩
  · intro p hp target htarget
    rw [hdrafts] at hp
    rcases List.mem_append.mp hp with hbefore | hown'
    · exact answered_of_former hd hname hdrafts (hnoted.answered p hbefore target htarget)
    · obtain rfl := List.mem_singleton.mp hown'
      exact answered_of_own hd hname htarget
  · intro other hother
    rw [hdrafts] at hother
    rcases List.mem_append.mp hother with hbefore | hown'
    · exact hnoted.once other hbefore
    · obtain rfl := List.mem_singleton.mp hown'
      rw [hd.triggeredRules, hd.own]
      refine ⟨hd.distinct, ?_⟩
      intro hself
      obtain ⟨entry, hscheduled, hid⟩ := List.mem_map.mp hself
      exact hown (hid ▸ (hd.accepted entry hscheduled).2.1)

end Linked

/-- When the queue has run out the links agree, and every request has been answered. -/
theorem linked_drain (hdistinct : (rules.map (·.id)).Nodup) (hfresh : t.drafts = []) :
    Linked (drain r rules (rules.map QueueEntry.base) t) [] := by
  refine drain_attends (P := fun queue t => Linked t queue) hdistinct hfresh Linked.skip ?_ ?_
  · intro waiting source rest rule t t' scheduled d hd hfired hsource hnew hwaits hlinked
    refine hlinked.turn hd hfired hsource ?_
    intro hown
    apply hwaits rule.id hown
    rw [hd.evaluated]
    exact List.mem_append_right _ (List.mem_singleton.mpr rfl)
  · constructor
    · intro former c later hsplit
      rw [hfresh] at hsplit
      exact absurd hsplit.symm (List.append_ne_nil_of_right_ne_nil _ (List.cons_ne_nil _ _))
    · intro entry hentry id hid
      obtain ⟨rule, -, rfl⟩ := List.mem_map.mp hentry
      cases hid
    · intro p hp
      rw [hfresh] at hp
      cases hp
    · intro d hd
      rw [hfresh] at hd
      cases hd

end Tick

end Harbormaster
