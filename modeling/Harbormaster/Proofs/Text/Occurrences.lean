import Mathlib.Data.List.Induction
import Mathlib.Data.List.Nodup

/-!
Texts without repetition. Who goes through a list of texts and notes those that are new is
left with each of them once, in the order in which they first appear.
-/

namespace Harbormaster.Text

theorem eraseDups_concat (names : List String) (name : String) :
    (names ++ [name]).eraseDups =
      if name ∈ names then names.eraseDups else names.eraseDups ++ [name] := by
  rw [List.eraseDups_append]
  by_cases hlisted : name ∈ names
  · simp [hlisted, List.removeAll]
  · have hsingle : [name].eraseDups = [name] := rfl
    simp [hlisted, List.removeAll, hsingle]

theorem nodup_eraseDups (names : List String) : names.eraseDups.Nodup := by
  induction names using List.reverseRecOn with
  | nil => exact .nil
  | append_singleton names name ih =>
    rw [eraseDups_concat]
    split
    · exact ih
    · rename_i hnew
      rw [← List.mem_eraseDups] at hnew
      exact List.nodup_append.mpr ⟨ih, List.nodup_singleton _,
        fun a ha b hb => List.mem_singleton.mp hb ▸ ne_of_mem_of_not_mem ha hnew⟩

/-- Noting what is new keeps the first occurrence of every text. -/
theorem foldl_eq_eraseDups (names : List String) :
    names.foldl (fun seen name => if seen.contains name then seen else seen ++ [name]) [] =
      names.eraseDups := by
  induction names using List.reverseRecOn with
  | nil => rfl
  | append_singleton names name ih =>
    rw [List.foldl_concat, ih, eraseDups_concat]
    simp

end Harbormaster.Text
