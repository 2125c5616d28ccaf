import Harbormaster.Action.Deed
import Harbormaster.Explanation.Draft
import Harbormaster.Explanation.Stored
import Harbormaster.Proofs.World.Cells

/-!
Recorded changes performed again. A change can be performed where its target
holds the former value; it gives the target the latter value, or takes it back
where that value is marked as absent.
-/

namespace Harbormaster

namespace World

variable {u w : World} {text : String} {v : Value}

theorem parse?_of_current (h : w.current text = .ok v) : ∃ path, Path.parse? text = some path := by
  cases hpeek : w.peek text with
  | error failure =>
    rw [current, hpeek] at h
    cases h
  | ok held =>
    obtain ⟨path, hpath, -⟩ := (require_bind_eq_ok_iff _ _ _).mp hpeek
    exact ⟨path, hpath⟩

/-- What an ordinary cell holds now is what a document keeps of the cell that it reflects. -/
theorem Reflects.current (h : u.Reflects w) (hw : w.Sound) (htext : Path.Ordinary text)
    (hv : w.current text = .ok v) :
    u.current text = .ok v.stored := by
  cases hpeek : w.peek text with
  | error failure =>
    rw [World.current, hpeek] at hv
    cases hv
  | ok held =>
    rw [World.current, hpeek] at hv
    cases hv
    obtain ⟨path, hpath, hat⟩ := (require_bind_eq_ok_iff _ _ _).mp hpeek
    obtain ⟨kept, hkept, hmarked⟩ := h.peekAt hw (htext path hpath) hat
    have hpeek' : u.peek text = .ok kept :=
      (require_bind_eq_ok_iff _ _ _).mpr ⟨path, hpath, hkept⟩
    rw [World.current, hpeek', ← hmarked]
    rfl

end World

def Change.perform (c : Change) (w : World) : Except Failure World :=
  w.settle c.target.plainText c.latter

/-- Changes that lead from one world to another, each of them from the value that
its target holds by then. -/
inductive Replays : World → List Change → World → Prop where
  | done (w : World) : Replays w [] w
  | step {c : Change} {rest : List Change} {w w' final : World}
      (hformer : w.current c.target.plainText = .ok c.former)
      (hlatter : c.perform w = .ok w') (hrest : Replays w' rest final) :
      Replays w (c :: rest) final

namespace Replays

variable {w w' final : World} {changes later : List Change}

theorem append (h : Replays w changes w') (hlater : Replays w' later final) :
    Replays w (changes ++ later) final := by
  induction h with
  | done => exact hlater
  | step hformer hlatter _ ih => exact .step hformer hlatter (ih hlater)

/-- No cell changes that is not the target of a change. -/
theorem peekAt_eq {path : Path} (h : Replays w changes final)
    (hspares : ∀ c ∈ changes, Path.SparesBase c.target.plainText)
    (hother : ∀ c ∈ changes, Path.parse? c.target.plainText ≠ some path) :
    final.peekAt path = w.peekAt path := by
  induction h with
  | done => rfl
  | step hformer hlatter _ ih =>
    have hfirst := World.peekAt_of_settle hlatter (hspares _ List.mem_cons_self)
      (hother _ List.mem_cons_self)
    rw [ih (fun c hc => hspares c (List.mem_cons_of_mem _ hc))
      fun c hc => hother c (List.mem_cons_of_mem _ hc), hfirst]

end Replays

/-- Changes that lead from one world to another and leave alone what records fall back on. -/
structure Leads (w : World) (changes : List Change) (final : World) : Prop where
  replays : Replays w changes final
  spares : ∀ c ∈ changes, Path.SparesBase c.target.plainText

namespace Leads

variable {w w' final : World} {changes later : List Change}

theorem nil (w : World) : Leads w [] w := ⟨.done w, fun _ hnone => nomatch hnone⟩

theorem append (h : Leads w changes w') (hlater : Leads w' later final) :
    Leads w (changes ++ later) final :=
  ⟨h.replays.append hlater.replays, fun c hc =>
    (List.mem_append.mp hc).elim (h.spares c) (hlater.spares c)⟩

end Leads

/-- The changes that applications are recorded with. -/
def Application.changes (applications : List Application) : List Change :=
  ((applications.filter (·.success)).filterMap Draft.changeOf).map Change.stored

theorem Application.changes_append (former latter : List Application) :
    Application.changes (former ++ latter) =
      Application.changes former ++ Application.changes latter := by
  simp [Application.changes]

/-- An action that is no write is recorded with no change. -/
theorem Application.changes_of_not_mutating {a : Application}
    (hkind : a.action.kind.isMutating = false) : Application.changes [a] = [] := by
  simp only [Application.changes, List.filter_cons, List.filter_nil]
  split
  · simp [Draft.changeOf, hkind]
  · rfl

/-- What an action asks for and what it says is no part of its change. -/
theorem Application.changes_congr (a : Application) (triggerRequest : Option String)
    (message : String) :
    Application.changes [{ a with triggerRequest, message }] = Application.changes [a] := by
  simp only [Application.changes, List.filter_cons, List.filter_nil]
  split
  · rfl
  · rfl

end Harbormaster
