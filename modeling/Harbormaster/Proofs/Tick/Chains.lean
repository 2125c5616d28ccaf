import Harbormaster.Proofs.Tick.Coverage

/-!
How deep chains get. The depth of a place in the queue is at most the number of
rules that had their turn before it was taken, so a limit that lets a chain run
through all the rules is never exceeded. What a tick does once a smaller limit has
been exceeded is not shown here.
-/

namespace Harbormaster

namespace Tick

variable {r : TickRules} {rules waiting : List Rule} {source : QueueEntry} {rule : Rule}
  {action : Action} {t t' : Tick} {scheduled scheduled' queue : List QueueEntry}

theorem depth_of_queued {limit : Nat} {target : String} {entry : QueueEntry}
    (h : t.schedule limit waiting source scheduled target = .queued entry) :
    entry.depth = source.depth + 1 := by
  unfold schedule at h
  split at h
  · cases h
  · split at h
    · cases h
    · dsimp only at h
      split at h
      · cases h
      · cases h
        rfl

/-- A chain that is too deep by one more rule, which waits for its turn. -/
theorem limit_of_overflowed {limit : Nat} {target : String} {overflow : ChainOverflow}
    (h : t.schedule limit waiting source scheduled target = .overflowed overflow) :
    limit < source.depth + 1 ∧ 0 < waiting.length := by
  unfold schedule at h
  split at h
  · cases h
  · split at h
    · cases h
    · rename_i haccepted
      dsimp only at h
      split at h
      · rename_i hdeep
        refine ⟨hdeep, List.length_pos_of_ne_nil ?_⟩
        rintro rfl
        simp at haccepted
      · cases h

/-- The rules that a rule asks for are one deeper than the rule, and the chain does
not overflow where the limit lets it be so deep or no rule waits. -/
theorem evaluateRule_depth (hfits : source.depth + 1 ≤ r.maxChainDepth ∨ waiting = [])
    (hopen : t.overflow = none) :
    (evaluateRule r waiting source rule t).1.overflow = none ∧
      ∀ entry ∈ (evaluateRule r waiting source rule t).2, entry.depth = source.depth + 1 := by
  refine evaluateRule_preserves (P := fun t' scheduled =>
    t'.overflow = none ∧ ∀ entry ∈ scheduled, entry.depth = source.depth + 1) ?_ ?_
  · intro _ _ _ _
    exact ⟨hopen, fun _ hentry => nomatch hentry⟩
  · rintro action _ t scheduled t' scheduled' ⟨hbefore, hdepth⟩ hact
    cases hact with
    | failed => exact ⟨hbefore, hdepth⟩
    | applied | ignored =>
      obtain ⟨_, _, heq⟩ := recordApplied_annotates _ rule _
      rw [heq]
      exact ⟨hbefore, hdepth⟩
    | queued _ _ hschedule =>
      obtain ⟨_, _, heq⟩ := recordApplied_annotates _ rule _
      rw [heq]
      refine ⟨hbefore, ?_⟩
      intro entry hentry
      rcases List.mem_append.mp hentry with hformer | hlast
      · exact hdepth entry hformer
      · rw [List.mem_singleton.mp hlast]
        exact depth_of_queued hschedule
    | overflowed _ _ hschedule =>
      obtain ⟨hlimit, hwaits⟩ := limit_of_overflowed hschedule
      rcases hfits with hfits | rfl
      · omega
      · cases hwaits

/-- No chain overflows a limit that lets it run through all rules: the depth of an
entry is at most the number of rules that had their turn. -/
theorem drain_overflow (hlimit : rules.length ≤ r.maxChainDepth + 1) (hopen : t.overflow = none)
    (hdepth : ∀ entry ∈ queue, entry.depth = 0) :
    (drain r rules queue t).overflow = none := by
  have hend : ∃ left : List Rule, (drain r rules queue t).overflow = none ∧
      ∀ entry ∈ ([] : List QueueEntry), entry.depth + left.length ≤ rules.length := by
    refine drain_preserves (P := fun waiting queue t => t.overflow = none ∧
      ∀ entry ∈ queue, entry.depth + waiting.length ≤ rules.length) ?_ ?_ ⟨hopen, ?_⟩
    · rintro waiting entry rest t _ ⟨hopen, hdepth⟩
      obtain ⟨_, _, heq⟩ := t.noteIgnored_annotates entry
      rw [heq]
      exact ⟨hopen, fun other hother => hdepth other (List.mem_cons_of_mem _ hother)⟩
    · rintro waiting entry rest t rule hrule ⟨hopen, hdepth⟩
      have hlength := (perm_cons_eraseP hrule).length_eq
      rw [List.length_cons] at hlength
      have hsource := hdepth entry List.mem_cons_self
      have hfits : entry.depth + 1 ≤ r.maxChainDepth ∨
          waiting.eraseP (·.id = entry.ruleId) = [] := by
        rw [← List.length_eq_zero_iff]
        omega
      obtain ⟨hstill, hbelow⟩ := @evaluateRule_depth r _ entry rule t hfits hopen
      refine ⟨hstill, ?_⟩
      intro other hother
      rcases mem_of_queueAfter hother with hscheduled | hrest
      · have := hbelow other hscheduled
        omega
      · have := hdepth other (List.mem_cons_of_mem _ hrest)
        omega
    · intro entry hentry
      rw [hdepth entry hentry]
      omega
  obtain ⟨_, hnone, _⟩ := hend
  exact hnone

end Tick

namespace Engine

/-- A tick commits no overflow where the limit lets a chain run through all rules. -/
theorem chainOverflow_eq_none {e : Engine} {s : Snapshot}
    (hlimit : e.rules.length ≤ e.maxChainDepth + 1)
    (hs : e.tick.snapshot = .ok s) : s.record.chainOverflow = none := by
  have hnone : e.runTick.1.overflow = none := by
    refine Tick.drain_overflow (r := e.tickRules) (t := e.beginTick _ _) hlimit rfl ?_
    intro entry hentry
    obtain ⟨rule, -, rfl⟩ := List.mem_map.mp hentry
    rfl
  rw [(snapshot_of_tick hs).1]
  exact hnone

end Engine

end Harbormaster
