import Harbormaster.Input.Spec
import Harbormaster.Proofs.Expression.Lexemes
import Harbormaster.Proofs.Number.Integers
import Harbormaster.Proofs.Text.Runs

/-!
Literals. The text of a truth value or of an integer is read as what it is the text of. Numbers
are read from decimals only, and a decimal is told by its form; every other text stands for
itself.
-/

namespace Harbormaster

open Expression (IsDigits)

inductive IsUnsigned : List Char → Prop where
  | whole {digits : List Char} (hdigits : IsDigits digits) : IsUnsigned digits
  | pointed {digits decimals : List Char} (hdigits : IsDigits digits)
      (hdecimals : IsDigits decimals) : IsUnsigned (digits ++ '.' :: decimals)

inductive IsDecimal : List Char → Prop where
  | plain {cs : List Char} (h : IsUnsigned cs) : IsDecimal cs
  | negative {cs : List Char} (h : IsUnsigned cs) : IsDecimal ('-' :: cs)

section Decimals

variable {cs rest : List Char} {negative : Bool} {n : Number}

def unsignedLiteral? (negative : Bool) (rest : List Char) : Option Number :=
  let whole := rest.takeWhile Char.isDigit
  match rest.dropWhile Char.isDigit with
  | [] =>
    if whole.isEmpty then none
    else some (.ofDecimal negative (Number.digitsValue whole) 0)
  | '.' :: fraction =>
    if !whole.isEmpty && (!fraction.isEmpty && fraction.all Char.isDigit) then
      some (.ofDecimal negative (Number.digitsValue (whole ++ fraction)) (-(fraction.length : Int)))
    else none
  | _ => none

theorem decimalLiteral?_minus (cs : List Char) :
    decimalLiteral? ('-' :: cs) = unsignedLiteral? true cs := rfl

theorem decimalLiteral?_of_ne (h : ∀ c ∈ cs.head?, c ≠ '-') :
    decimalLiteral? cs = unsignedLiteral? false cs := by
  unfold decimalLiteral?
  split
  rename_i hsign
  split at hsign
  · exact absurd rfl (h '-' rfl)
  · cases hsign
    rfl

theorem isUnsigned_of_unsignedLiteral? (h : unsignedLiteral? negative cs = some n) :
    IsUnsigned cs := by
  have hsplit : cs.takeWhile Char.isDigit ++ cs.dropWhile Char.isDigit = cs :=
    List.takeWhile_append_dropWhile
  have hdigits : ∀ c ∈ cs.takeWhile Char.isDigit, c.isDigit = true :=
    fun c hc => List.mem_takeWhile_imp hc
  unfold unsignedLiteral? at h
  dsimp only at h
  split at h
  · rename_i hrest
    split at h
    · cases h
    · rename_i hsome
      rw [hrest, List.append_nil] at hsplit
      rw [← hsplit]
      exact .whole ⟨by simpa using hsome, hdigits⟩
  · rename_i fraction hrest
    split at h
    · rename_i hparts
      simp only [Bool.and_eq_true, Bool.not_eq_true', List.isEmpty_eq_false_iff,
        List.all_eq_true] at hparts
      obtain ⟨hwhole, hsome, hfraction⟩ := hparts
      rw [← hsplit, hrest]
      exact .pointed ⟨hwhole, hdigits⟩ ⟨hsome, hfraction⟩
    · cases h
  · cases h

theorem IsUnsigned.forall_mem (h : IsUnsigned cs) : ∀ c ∈ cs, c.isDigit = true ∨ c = '.' := by
  cases h with
  | whole hdigits => exact fun c hc => .inl (hdigits.digits c hc)
  | pointed hdigits hdecimals =>
    intro c hc
    rcases List.mem_append.mp hc with hc | hc
    · exact .inl (hdigits.digits c hc)
    · exact (List.mem_cons.mp hc).symm.imp_left (hdecimals.digits c)

/-- The characters of a decimal. -/
theorem IsDecimal.forall_mem (h : IsDecimal cs) :
    ∀ c ∈ cs, (c.isDigit = true ∨ c = '.') ∨ c = '-' := by
  cases h with
  | plain h => exact fun c hc => .inl (h.forall_mem c hc)
  | negative h =>
    exact List.forall_mem_cons.mpr ⟨.inr rfl, fun c hc => .inl (h.forall_mem c hc)⟩

/-- Only decimals are read as numbers. -/
theorem isDecimal_of_decimalLiteral? (h : decimalLiteral? cs = some n) : IsDecimal cs := by
  by_cases hsign : ∃ rest, cs = '-' :: rest
  · obtain ⟨rest, rfl⟩ := hsign
    exact .negative (isUnsigned_of_unsignedLiteral? h)
  · have hnone : ∀ c ∈ cs.head?, c ≠ '-' := by
      rintro c hc rfl
      cases cs with
      | nil => cases hc
      | cons first rest => exact hsign ⟨rest, congrArg (· :: rest) (Option.some.inj hc)⟩
    rw [decimalLiteral?_of_ne hnone] at h
    exact .plain (isUnsigned_of_unsignedLiteral? h)

theorem unsignedLiteral?_of_isDigits (h : IsDigits cs) :
    unsignedLiteral? negative cs = some (.ofDecimal negative (Number.digitsValue cs) 0) := by
  have htake := @Text.takeWhile_run _ _ [] h.digits (by simp)
  have hdrop := @Text.dropWhile_run _ _ [] h.digits (by simp)
  rw [List.append_nil] at htake hdrop
  simp [unsignedLiteral?, htake, hdrop, h.nonempty]

end Decimals

section Integers

variable {n : Int} {count : Nat}

theorem digitsValue_toDigits (count : Nat) : Number.digitsValue (Nat.toDigits 10 count) = count :=
  Nat.ofDigitChars_toDigits (by decide) (by decide)

theorem isDigits_toDigits (count : Nat) : IsDigits (Nat.toDigits 10 count) where
  nonempty := List.length_pos_iff.mp Nat.length_toDigits_pos
  digits := fun _ hc => Nat.isDigit_of_mem_toDigits (by decide) (by decide) hc

/-- A decimal without a fraction is an integer. -/
theorem ofDecimal_zero (negative : Bool) (count : Nat) :
    Number.ofDecimal negative count 0 = .ofInt (if negative then -count else count) := by
  unfold Number.ofDecimal
  by_cases hcount : count = 0
  · rw [if_pos hcount, hcount]
    cases negative <;> rfl
  · have hpower : Number.powerOfTen (0 : Int).toNat = 1 := rfl
    have hnone : ¬(310 : Int) ≤ 0 := by decide
    rw [if_neg hcount, if_neg hnone, if_pos (Int.le_refl 0), hpower, Nat.mul_one]
    unfold Number.ofInt Number.ofUnits
    rw [Number.natAbs_mul_unit]
    simp only [Number.mul_unit_neg_iff]
    cases negative with
    | true =>
      have hpositive : 0 < count := Nat.pos_of_ne_zero hcount
      simp [hpositive]
    | false =>
      have hnonnegative : ¬(count : Int) < 0 := by omega
      simp [hnonnegative]

theorem readLiteral_of_decimalLiteral? {s : String} {n : Number}
    (h : decimalLiteral? (Text.trim s).toList = some n) : readLiteral s = .number n := by
  have htrue : Text.trim s ≠ "true" := by
    intro heq
    rw [heq] at h
    cases h
  have hfalse : Text.trim s ≠ "false" := by
    intro heq
    rw [heq] at h
    cases h
  simp [readLiteral, htrue, hfalse, h]

theorem toList_toString (n : Int) :
    (toString n).toList = if n < 0 then '-' :: Nat.toDigits 10 n.natAbs
      else Nat.toDigits 10 n.natAbs := by
  cases n with
  | ofNat count => exact Nat.toList_repr
  | negSucc count => simp [toString, Int.repr, Int.negSucc_lt_zero]

theorem decimalLiteral?_toString (n : Int) :
    decimalLiteral? (toString n).toList = some (.ofInt n) := by
  have hdigits := isDigits_toDigits n.natAbs
  rw [toList_toString]
  by_cases hn : n < 0
  · rw [if_pos hn, decimalLiteral?_minus, unsignedLiteral?_of_isDigits hdigits,
      digitsValue_toDigits, ofDecimal_zero, if_pos rfl, Int.ofNat_natAbs_of_nonpos hn.le,
      Int.neg_neg]
  · have hsign : ∀ c ∈ (Nat.toDigits 10 n.natAbs).head?, c ≠ '-' := by
      rintro c hc rfl
      have hdigit := hdigits.digits '-' (List.mem_of_mem_head? hc)
      exact absurd hdigit (by decide)
    rw [if_neg hn, decimalLiteral?_of_ne hsign, unsignedLiteral?_of_isDigits hdigits,
      digitsValue_toDigits, ofDecimal_zero, Int.natAbs_of_nonneg (Int.not_lt.mp hn)]
    rfl

/-- No white space stands in the digits of an integer. -/
theorem trim_toString (n : Int) : Text.trim (toString n) = toString n := by
  have hdigit : ∀ c ∈ Nat.toDigits 10 n.natAbs, Text.isBlank c = false := fun c hc =>
    Expression.not_isBlank_of_isNameChar
      (Expression.isNameChar_of_isDigit ((isDigits_toDigits _).digits c hc))
  rw [← String.toList_inj, Text.toList_trim]
  apply Text.trimChars_of_forall
  rw [toList_toString]
  split
  · exact List.forall_mem_cons.mpr ⟨by decide, hdigit⟩
  · exact hdigit

/-- The digits of an integer are read as the integer. -/
theorem readLiteral_toString (n : Int) : readLiteral (toString n) = .number (.ofInt n) := by
  refine readLiteral_of_decimalLiteral? ?_
  rw [trim_toString, decimalLiteral?_toString]

end Integers

section Texts

variable {text : String}

theorem readLiteral_text (htrim : Text.trim text = text) (htrue : text ≠ "true")
    (hfalse : text ≠ "false") (hdecimal : ¬IsDecimal text.toList) :
    readLiteral text = .text text := by
  have hnone : decimalLiteral? text.toList = none := by
    cases h : decimalLiteral? text.toList with
    | none => rfl
    | some n => exact absurd (isDecimal_of_decimalLiteral? h) hdecimal
  simp [readLiteral, htrim, htrue, hfalse, hnone]

end Texts

end Harbormaster
