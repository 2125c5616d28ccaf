import Harbormaster.Proofs.Conflict.Ends
import Harbormaster.Proofs.World.Texts

/-!
The ledger keeps in step with the world. Of every cell that has been written it
knows the value that the cell shows and the one that it showed before the tick, and
a cell that it does not know shows what it showed then. No write can break this, also
not one that fails on a cell that is in conflict.
-/

namespace Harbormaster.Ledger

/-- What the ledger knows of the cells is so, in a tick that began with `start` and
has come to `w`. -/
structure Tracks (l : Ledger) (start w : World) : Prop where
  untouched : ∀ text, l.entries.get? text = none → w.peek text = start.peek text
  base : ∀ text entry, l.entries.get? text = some entry → start.peek text = .ok entry.base
  value : ∀ text entry, l.entries.get? text = some entry → w.peek text = .ok entry.value
  owns : ∀ text, start.Owns text → w.Owns text

variable {l l' : Ledger} {start w w' : World} {request : WriteRequest} {entry : CellEntry}

theorem tracks_begun (policy : Policy) (tick : Value) (start : World) :
    ((new policy).beginTick tick).Tracks start start := by
  refine ⟨fun _ _ => rfl, ?_, ?_, fun _ => id⟩
  · intro text entry hentry
    cases hentry
  · intro text entry hentry
    cases hentry

/-- Only the cells matter, and neither events nor the time are cells. -/
theorem Tracks.congr {start' : World} (h : l.Tracks start w)
    (hstart : ∀ path, start'.peekAt path = start.peekAt path)
    (hworld : ∀ path, w'.peekAt path = w.peekAt path)
    (hstartBase : ∀ path, start'.base? path = start.base? path)
    (hworldBase : ∀ path, w'.base? path = w.base? path) : l.Tracks start' w' := by
  have hpeek : ∀ {u v : World}, (∀ path, u.peekAt path = v.peekAt path) → ∀ text,
      u.peek text = v.peek text := by
    intro u v h text
    unfold World.peek
    rw [funext h]
  refine ⟨?_, ?_, ?_, ?_⟩
  · intro text hnone
    rw [hpeek hstart, hpeek hworld]
    exact h.untouched text hnone
  · intro text entry hentry
    rw [hpeek hstart]
    exact h.base text entry hentry
  · intro text entry hentry
    rw [hpeek hworld]
    exact h.value text entry hentry
  · unfold World.Owns World.OwnsAt
    simp only [hstartBase, hworldBase]
    exact h.owns

/-- A new entry is right where it fits its cell and the other cells stay as they
are. -/
theorem Tracks.put {path : String} (h : l.Tracks start w) (hbase : start.peek path = .ok entry.base)
    (hvalue : w'.peek path = .ok entry.value)
    (hothers : ∀ other, other ≠ path → w'.peek other = w.peek other)
    (howns : ∀ text, w.Owns text → w'.Owns text) :
    (l.put path entry).Tracks start w' := by
  refine ⟨?_, ?_, ?_, fun text htext => howns text (h.owns text htext)⟩
  · intro text hnone
    rw [get?_put] at hnone
    split at hnone
    · cases hnone
    · rename_i hother
      rw [hothers text hother]
      exact h.untouched text hnone
  · intro text held hheld
    rw [get?_put] at hheld
    split at hheld
    · rename_i htext
      cases hheld
      rw [htext]
      exact hbase
    · exact h.base text held hheld
  · intro text held hheld
    rw [get?_put] at hheld
    split at hheld
    · rename_i htext
      cases hheld
      rw [htext]
      exact hvalue
    · rename_i hother
      rw [hothers text hother]
      exact h.value text held hheld

/-- A write to a cell that nothing else answers for keeps the ledger in step. -/
theorem Tracks.of_end {result : Except Failure WriteOutcome} (h : l.Tracks start w)
    (howns : start.Owns request.path) (hend : End l w request l' w' result) :
    l'.Tracks start w' := by
  have hspares := howns.sparesBase
  cases hend with
  | refused => exact h
  | opened hfresh hbase hworld =>
    refine h.put ?_ (World.peek_of_write hworld hspares)
      (fun other hne => World.peek_of_write_ne hworld hspares hne)
      fun _ htext => htext.write hworld hspares
    rw [← h.untouched _ hfresh]
    exact hbase
  | updated hentry _ hworld =>
    have hbase := h.base _ _ hentry
    exact h.put hbase (World.peek_of_write hworld hspares)
      (fun other hne => World.peek_of_write_ne hworld hspares hne)
      fun _ htext => htext.write hworld hspares
  | withheld hentry =>
    have hbase := h.base _ _ hentry
    have hvalue := h.value _ _ hentry
    exact h.put hbase hvalue (fun _ _ => rfl) fun _ htext => htext
  | @settled entry _ hentry _ hworld =>
    have hbase := h.base _ _ hentry
    have hput : (l.put request.path (settledEntry (entry.listing request)
        (l.resolution entry request))).Tracks start w' :=
      h.put hbase (peek_of_apply hworld (h.owns _ howns))
        (fun other hne => peek_of_apply_ne hworld hspares hne)
        fun _ htext => owns_of_apply htext hworld hspares
    exact ⟨hput.untouched, hput.base, hput.value, hput.owns⟩

/-- A write leaves alone what other cells show, if it does not alter what records fall back
on. -/
theorem peek_of_end_ne {result : Except Failure WriteOutcome} {text : String}
    (hend : End l w request l' w' result) (hspares : Path.SparesBase request.path)
    (hother : text ≠ request.path) : w'.peek text = w.peek text := by
  cases hend with
  | refused | withheld => rfl
  | opened _ _ hworld | updated _ _ hworld =>
    exact World.peek_of_write_ne hworld hspares hother
  | settled _ _ hworld => exact peek_of_apply_ne hworld hspares hother

theorem distinct_of_end {result : Except Failure WriteOutcome} (h : w.Distinct)
    (hend : End l w request l' w' result) : w'.Distinct := by
  cases hend with
  | refused | withheld => exact h
  | opened _ _ hworld | updated _ _ hworld => exact h.write hworld
  | settled _ _ hworld => exact distinct_of_apply h hworld

end Harbormaster.Ledger
