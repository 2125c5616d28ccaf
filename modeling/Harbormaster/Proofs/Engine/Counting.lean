import Harbormaster.Proofs.Engine.Clock

/-!
Runs of several ticks. A run ends at a tick that is not committed. An engine that counts from
zero and whose inputs reports can name commits all ticks of a run, as long as they can be
counted, and the run is then nothing but that many calls.
-/

namespace Harbormaster.Engine

variable {e : Engine} {count : Nat}

structure Timely (e : Engine) : Prop where
  onTime : e.history.length ≤ Number.exactLimit → OnTime 0 e
  nameable : e.Nameable

theorem Timely.submit {input : Input} (h : Timely e) (hname : input.stored.isNameable = true) :
    Timely (e.submit input) := by
  refine ⟨fun hlimit => ⟨(h.onTime hlimit).begun, (h.onTime hlimit).current⟩, ?_⟩
  refine nameable_call (c := .submit input) h.nameable ?_
  rintro given ⟨⟩
  exact hname

/-- Up to the limit a tick is not refused. -/
theorem Timely.tick_commits (h : Timely e) (hlimit : e.history.length < Number.exactLimit) :
    ∃ s, e.tick.snapshot = .ok s := by
  obtain ⟨s, hs, -⟩ := (h.onTime hlimit.le).tick h.nameable (by omega)
  exact ⟨s, hs⟩

theorem Timely.tick (h : Timely e) : Timely e.tick.engine := by
  refine ⟨fun hlimit => ?_, nameable_call (c := .tick) h.nameable fun _ hnone => nomatch hnone⟩
  have hbefore : e.history.length ≤ e.tick.engine.history.length := (history_call e .tick).length_le
  have honTime := h.onTime (by omega)
  cases hs : e.tick.snapshot with
  | ok s =>
    rw [history_of_commit hs, List.length_append, List.length_singleton] at hlimit
    have hone : ticks [.tick] = 1 := rfl
    exact honTime.call (c := .tick) (by omega)
  | error failure =>
    obtain ⟨bus, hengine, -⟩ := engine_of_refusal hs
    rw [hengine]
    exact ⟨honTime.begun, honTime.current⟩

theorem Timely.run (h : Timely e) (count : Nat) : Timely (run count e).1 := by
  induction count generalizing e with
  | zero => exact h
  | succ count ih =>
    unfold Engine.run
    dsimp only
    split
    · exact h.tick
    · exact ih h.tick

/-- As many ticks as can be counted are all committed, and the run has made them one after the
other. -/
theorem Timely.run_commits (h : Timely e)
    (hlimit : e.history.length + count ≤ Number.exactLimit) :
    (∃ snapshots, (Engine.run count e).2.1 = .ok snapshots) ∧
      (Engine.run count e).1 = e.after (.replicate count .tick) ∧
      (Engine.run count e).1.history.length = e.history.length + count := by
  induction count generalizing e with
  | zero => exact ⟨⟨[], rfl⟩, rfl, rfl⟩
  | succ count ih =>
    obtain ⟨s, hs⟩ := h.tick_commits (by omega)
    have hlength : e.tick.engine.history.length = e.history.length + 1 := by
      rw [history_of_commit hs, List.length_append, List.length_singleton]
    obtain ⟨⟨snapshots, hrun⟩, hcalls, hcount⟩ := ih h.tick (by omega)
    unfold Engine.run
    dsimp only
    rw [hs]
    dsimp only
    rw [hrun, hcount, hlength]
    exact ⟨⟨s :: snapshots, rfl⟩, hcalls, by omega⟩

end Harbormaster.Engine
