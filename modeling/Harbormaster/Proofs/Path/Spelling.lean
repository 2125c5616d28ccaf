import Harbormaster.Path
import Harbormaster.Proofs.Number.Rounding
import Harbormaster.Proofs.Text.Pieces
import Harbormaster.Value.Written

/-!
Values that spell paths. A path is named by a text, or by a list of one item that
names it; such a value counts as given, and a document keeps it in words.
-/

namespace Harbormaster

/-- A path is spelled with the characters of words and with dots. -/
theorem Path.isWordChar_of_parse? {text : String} {path : Path}
    (h : Path.parse? text = some path) {c : Char} (hc : c ∈ text.toList) (hdot : c ≠ '.') :
    Path.isWordChar c = true := by
  unfold Path.parse? at h
  dsimp only at h
  split at h
  · rename_i hwords
    obtain ⟨piece, hpiece, hmember⟩ := Text.mem_splitChars hc hdot
    have hword := List.all_eq_true.mp hwords piece hpiece
    unfold Path.isWord at hword
    exact List.all_eq_true.mp (Bool.and_eq_true_iff.mp hword).2 c hmember
  · cases h

namespace Value

/-- Two items and more are told apart by commas, which no path has. -/
theorem parse?_intercalate (first second : String) (rest : List String) :
    Path.parse? (",".intercalate (first :: second :: rest)) = none := by
  cases hparse : Path.parse? (",".intercalate (first :: second :: rest)) with
  | none => rfl
  | some path =>
    have hcomma : ',' ∈ (",".intercalate (first :: second :: rest)).toList := by
      rw [String.toList_intercalate]
      simp [List.intercalate]
    have hword := Path.isWordChar_of_parse? hparse hcomma (by decide)
    exact absurd hword (by decide)

/-- There is a blank in the text of everything that is native. -/
theorem parse?_native (thing : Native) : Path.parse? thing.text = none := by
  cases hparse : Path.parse? thing.text with
  | none => rfl
  | some path =>
    have hblank : ' ' ∈ thing.text.toList := by
      cases thing with
      | root | method | listMethod => simp [Native.text, Native.functionText]
    have hword := Path.isWordChar_of_parse? hparse hblank (by decide)
    exact absurd hword (by decide)

theorem plainItems_cons (v : Value) (rest : List Value) :
    ∃ text, plainItems (v :: rest) = text :: plainItems rest := by
  cases v with
  | missing | absent | boolean | number | text | list | record | native | fallback => exact ⟨_, rfl⟩

/-- An item that stands for something has its own text in a list. -/
theorem plainText_singleton {v : Value} (hmissing : v ≠ missing) (habsent : v ≠ absent) :
    (list [v]).plainText = v.plainText := by
  cases v with
  | missing => exact absurd rfl hmissing
  | absent => exact absurd rfl habsent
  | boolean | number | text | list | record | native | fallback => rfl

private theorem ne_of_parse? {text other : String} {path : Path}
    (h : Path.parse? text = some path) (hother : Path.parse? other = none) : text ≠ other := by
  rintro rfl
  rw [hother] at h
  cases h

private theorem parse?_empty : Path.parse? "" = none := by decide +kernel
private theorem parse?_undefined : Path.parse? "undefined" = none := by decide +kernel
private theorem parse?_null : Path.parse? "null" = none := by decide +kernel
private theorem parse?_false : Path.parse? "false" = none := by decide +kernel
private theorem parse?_zero : Path.parse? "0" = none := by decide +kernel
private theorem parse?_notANumber : Path.parse? "NaN" = none := by decide +kernel
private theorem parse?_infinity : Path.parse? "Infinity" = none := by decide +kernel
private theorem parse?_negativeInfinity : Path.parse? "-Infinity" = none := by decide +kernel

/-- What spells a path is kept in words by a document. -/
theorem plainText_stored {v : Value} {path : Path} (h : Path.parse? v.plainText = some path) :
    v.stored.plainText = v.plainText := by
  match v with
  | missing | absent | boolean _ | text _ => rfl
  | record ⟨entries⟩ => rfl
  | native .root => rfl
  | native (.method name) | native (.listMethod name) =>
    exact absurd rfl (ne_of_parse? h (parse?_native _))
  | fallback _ => rfl
  | number (.finite units fits) => rfl
  -- what is not finite is stored as the marker, but the names of these spell no path
  | number (.infinite true) => exact absurd rfl (ne_of_parse? h parse?_negativeInfinity)
  | number (.infinite false) => exact absurd rfl (ne_of_parse? h parse?_infinity)
  | number .notANumber => exact absurd rfl (ne_of_parse? h parse?_notANumber)
  | list [] => rfl
  -- stored, the item must not become one that a list leaves out of its text
  | list [v] =>
    have hmissing : v ≠ missing := by
      rintro rfl
      exact absurd rfl (ne_of_parse? h parse?_empty)
    have habsent : v ≠ absent := by
      rintro rfl
      exact absurd rfl (ne_of_parse? h parse?_empty)
    rw [plainText_singleton hmissing habsent] at h ⊢
    have hkept := plainText_stored h
    have hmissing' : v.stored ≠ missing := by
      intro hnone
      rw [hnone] at hkept
      exact absurd hkept.symm (ne_of_parse? h parse?_undefined)
    have habsent' : v.stored ≠ absent := by
      intro hnone
      rw [hnone] at hkept
      exact absurd hkept.symm (ne_of_parse? h parse?_null)
    have hmarked : v.stored.marked = v.stored := by
      generalize v.stored = value at hmissing'
      cases value with
      | missing => exact absurd rfl hmissing'
      | absent | boolean | number | text | list | record | native | fallback => rfl
    have hitem : (list [v]).stored = list [v.stored] := by
      rw [stored, storedItems, storedItems, hmarked]
    rw [hitem, plainText_singleton hmissing' habsent', hkept]
  | list (first :: second :: rest) =>
    obtain ⟨text, hfirst⟩ := plainItems_cons first (second :: rest)
    obtain ⟨text', hsecond⟩ := plainItems_cons second rest
    rw [plainText, hfirst, hsecond, parse?_intercalate] at h
    cases h

theorem toText_zero (fits : Number.Fits 0) : (Number.finite 0 fits).toText = "0" := by
  simp [Number.toText, Number.signed]
  rfl

theorem hasForm_of_parse? {v : Value} {path : Path} (h : Path.parse? v.plainText = some path) :
    v.hasForm = true := by
  cases v with
  | missing | fallback => exact absurd rfl (ne_of_parse? h parse?_undefined)
  | native thing =>
    rw [plainText, parse?_native] at h
    cases h
  | absent | boolean | number | text | list | record => rfl

/-- What spells a path counts as given. -/
theorem counts_of_parse? {v : Value} {path : Path} (h : Path.parse? v.plainText = some path) :
    v.counts = true := by
  cases v with
  | missing | fallback => exact absurd rfl (ne_of_parse? h parse?_undefined)
  | native | list | record => rfl
  | absent => exact absurd rfl (ne_of_parse? h parse?_null)
  | boolean b =>
    cases b with
    | true => rfl
    | false => exact absurd rfl (ne_of_parse? h parse?_false)
  | number n =>
    cases n with
    | finite units fits =>
      by_cases hzero : units = 0
      · subst hzero
        exact absurd (toText_zero fits) (ne_of_parse? h parse?_zero)
      · simp [counts, Number.isNaN, Number.zero_eq, Number.eq, hzero]
    | infinite negative => simp [counts, Number.isNaN, Number.zero_eq, Number.eq]
    | notANumber => exact absurd rfl (ne_of_parse? h parse?_notANumber)
  | text s =>
    by_cases hempty : s = ""
    · subst hempty
      exact absurd rfl (ne_of_parse? h parse?_empty)
    · simp [counts, hempty]

end Value

end Harbormaster
