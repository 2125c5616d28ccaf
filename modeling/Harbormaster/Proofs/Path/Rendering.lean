import Harbormaster.Path
import Harbormaster.Proofs.Text.Pieces

/-!
Paths and their texts. The text of a path is that of its words with dots between
them, so a text that spells a path is the text of that path, and two texts that
spell one path are the same.
-/

namespace Harbormaster

namespace Path

theorem words_of_ofWords? {words : List String} {path : Path} (h : ofWords? words = some path) :
    path.words = words := by
  unfold ofWords? at h
  split at h
  case h_6 => cases h
  all_goals
    cases h
    rfl

/-- A text that spells a path is the text of the path. -/
theorem render_of_parse? {text : String} {path : Path} (h : parse? text = some path) :
    path.render = text := by
  unfold parse? at h
  dsimp only at h
  split at h
  · unfold render
    rw [words_of_ofWords? h, ← String.toList_inj, String.toList_intercalate, List.map_map]
    have hpieces : (Text.splitChars '.' text.toList).map (String.toList ∘ String.ofList) =
        Text.splitChars '.' text.toList := by
      simp [Function.comp_def]
    rw [hpieces, Text.splitChars_eq_splitOn]
    exact List.intercalate_splitOn '.'
  · cases h

theorem eq_of_parse? {text other : String} {path : Path} (h : parse? text = some path)
    (hother : parse? other = some path) : text = other := by
  rw [← render_of_parse? h, ← render_of_parse? hother]

/-- No path has more than three words. -/
theorem ofWords?_of_length {words : List String} (h : 3 < words.length) :
    ofWords? words = none := by
  cases hpath : ofWords? words with
  | none => rfl
  | some path =>
    rw [← words_of_ofWords? hpath] at h
    cases path with
    | event eventType key => cases key <;> simp [Path.words] at h
    | agentField | environmentField | metric => simp [Path.words] at h

theorem not_mem_of_isWord {cs : List Char} (h : isWord cs = true) : '.' ∉ cs := by
  intro hdot
  have hall := List.all_eq_true.mp (Bool.and_eq_true_iff.mp h).2 '.' hdot
  exact absurd hall (by decide)

/-- The name of an agent spells the path of its speed only if it is a word. -/
theorem parse?_speed (name : String) : parse? ("agents." ++ name ++ ".speed") =
    if isWord name.toList then some (.agentField name "speed") else none := by
  have hcut : Text.splitChars '.' ("agents." ++ name ++ ".speed").toList =
      "agents".toList :: Text.splitChars '.' name.toList ++ ["speed".toList] := by
    have hchars : ("agents." ++ name ++ ".speed").toList =
        ("agents".toList ++ '.' :: name.toList) ++ '.' :: "speed".toList := by
      simp
    rw [hchars, Text.splitChars_append, Text.splitChars_append]
    rfl
  unfold parse?
  dsimp only
  rw [hcut]
  by_cases hdot : '.' ∈ name.toList
  · -- a name in pieces would make a path of four words at least
    obtain ⟨before, after, hname⟩ := List.append_of_mem hdot
    have hbefore := List.length_pos_iff.mpr (Text.splitChars_ne_nil '.' before)
    have hafter := List.length_pos_iff.mpr (Text.splitChars_ne_nil '.' after)
    have hword : isWord name.toList ≠ true := fun h => not_mem_of_isWord h hdot
    rw [if_neg hword]
    split
    · apply ofWords?_of_length
      rw [hname, Text.splitChars_append, List.length_map, List.length_append, List.length_cons,
        List.length_append, List.length_singleton]
      omega
    · rfl
  · have hends : isWord "agents".toList = true ∧ isWord "speed".toList = true := by decide
    rw [Text.splitChars_of_not_mem hdot]
    by_cases hword : isWord name.toList = true
    · have hall : ("agents".toList :: [name.toList] ++ ["speed".toList]).all isWord = true := by
        simpa [hword] using hends
      rw [if_pos hall, if_pos hword]
      simp [ofWords?]
    · have hall : ("agents".toList :: [name.toList] ++ ["speed".toList]).all isWord ≠ true := by
        simp [hword]
      rw [if_neg hall, if_neg hword]

end Path

end Harbormaster
