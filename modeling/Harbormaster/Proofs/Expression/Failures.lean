import Harbormaster.Expression.Operand

/-!
Why an expression fails: its text does not follow the grammar, it divides by zero, or
one of its paths gives no number in the world. The steps of the evaluator call each
other, always on fewer tokens or on a step closer to a factor, so they are shown to fail
this way all at once, by induction on the number of tokens.
-/

namespace Harbormaster

namespace Expression

variable {w : World} {source : String} {failure : Failure}

inductive Fails (w : World) (source : String) : Failure → Prop where
  | unexpectedCharacter (position : Nat) :
      Fails w source (.invalidAction (.unexpectedCharacter source position))
  | trailingInput : Fails w source (.invalidAction (.trailingInput source))
  | divisionByZero : Fails w source (.invalidAction (.divisionByZero source))
  | unexpectedEnd : Fails w source (.invalidAction (.unexpectedEnd source))
  | missingParenthesis : Fails w source (.invalidAction (.missingParenthesis source))
  | unexpectedToken (token : String) :
      Fails w source (.invalidAction (.unexpectedToken token source))
  | emptyExpression : Fails w source (.invalidAction .emptyExpression)
  | unread {path : String} {failure : Failure} (hread : w.read path = .error failure) :
      Fails w source failure
  | notNumeric (path : String) (found : Value) :
      Fails w source (.typeMismatch (.operandNotNumeric path found))

theorem fails_operand {path : String} (h : operand w path = .error failure) :
    Fails w source failure := by
  unfold operand at h
  split at h
  · rename_i hread
    cases h
    exact .unread hread
  · cases h
  · cases h
    exact .notNumeric _ _

structure FailsBelow (w : World) (source : String) (bound : Nat) : Prop where
  sum : ∀ {tokens failure}, tokens.length < bound →
    evalSum w source tokens = .error failure → Fails w source failure
  sumRest : ∀ {value tokens failure}, tokens.length < bound →
    evalSumRest w source value tokens = .error failure → Fails w source failure
  product : ∀ {tokens failure}, tokens.length < bound →
    evalProduct w source tokens = .error failure → Fails w source failure
  productRest : ∀ {value tokens failure}, tokens.length < bound →
    evalProductRest w source value tokens = .error failure → Fails w source failure
  factor : ∀ {tokens failure}, tokens.length < bound →
    evalFactor w source tokens = .error failure → Fails w source failure

namespace FailsBelow

variable {tokens : List Token} {value : Number}

theorem evalFactor (hbelow : FailsBelow w source tokens.length)
    (h : evalFactor w source tokens = .error failure) : Fails w source failure := by
  unfold Expression.evalFactor at h
  split at h
  · cases h
    exact .unexpectedEnd
  · cases h
  · split at h
    · rename_i hoperand
      cases h
      exact fails_operand hoperand
    · cases h
  · split at h
    · rename_i hfactor
      cases h
      exact hbelow.factor (Nat.lt_succ_self _) hfactor
    · cases h
  · split at h
    · rename_i hfactor
      cases h
      exact hbelow.factor (Nat.lt_succ_self _) hfactor
    · cases h
  · cases h
    exact .unexpectedToken _
  · split at h
    · rename_i hsum
      cases h
      exact hbelow.sum (Nat.lt_succ_self _) hsum
    · cases h
    · cases h
      exact .missingParenthesis
  · cases h
    exact .unexpectedToken _

theorem evalProductRest (hbelow : FailsBelow w source tokens.length)
    (h : evalProductRest w source value tokens = .error failure) : Fails w source failure := by
  unfold Expression.evalProductRest at h
  split at h
  · split at h
    · rename_i hfactor
      cases h
      exact hbelow.factor (Nat.lt_succ_self _) hfactor
    · rename_i rest _
      split at h
      · rename_i hrest
        cases h
        exact hbelow.productRest (Nat.lt_succ_of_lt rest.2) hrest
      · cases h
  · split at h
    · rename_i hfactor
      cases h
      exact hbelow.factor (Nat.lt_succ_self _) hfactor
    · rename_i rest _
      split at h
      · cases h
        exact .divisionByZero
      · split at h
        · rename_i hrest
          cases h
          exact hbelow.productRest (Nat.lt_succ_of_lt rest.2) hrest
        · cases h
  · cases h

theorem evalProduct (hbelow : FailsBelow w source tokens.length)
    (h : evalProduct w source tokens = .error failure) : Fails w source failure := by
  unfold Expression.evalProduct at h
  split at h
  · rename_i hfactor
    cases h
    exact hbelow.evalFactor hfactor
  · rename_i rest _
    split at h
    · rename_i hrest
      cases h
      exact hbelow.productRest rest.2 hrest
    · cases h

theorem evalSumRest (hbelow : FailsBelow w source tokens.length)
    (h : evalSumRest w source value tokens = .error failure) : Fails w source failure := by
  unfold Expression.evalSumRest at h
  split at h
  · split at h
    · rename_i hproduct
      cases h
      exact hbelow.product (Nat.lt_succ_self _) hproduct
    · rename_i rest _
      split at h
      · rename_i hrest
        cases h
        exact hbelow.sumRest (Nat.lt_succ_of_lt rest.2) hrest
      · cases h
  · split at h
    · rename_i hproduct
      cases h
      exact hbelow.product (Nat.lt_succ_self _) hproduct
    · rename_i rest _
      split at h
      · rename_i hrest
        cases h
        exact hbelow.sumRest (Nat.lt_succ_of_lt rest.2) hrest
      · cases h
  · cases h

theorem evalSum (hbelow : FailsBelow w source tokens.length)
    (h : evalSum w source tokens = .error failure) : Fails w source failure := by
  unfold Expression.evalSum at h
  split at h
  · rename_i hproduct
    cases h
    exact hbelow.evalProduct hproduct
  · rename_i rest _
    split at h
    · rename_i hrest
      cases h
      exact hbelow.sumRest rest.2 hrest
    · cases h

theorem of_all (w : World) (source : String) (bound : Nat) : FailsBelow w source bound := by
  induction bound using Nat.strongRecOn with
  | ind bound ih =>
    exact ⟨fun hfewer => (ih _ hfewer).evalSum, fun hfewer => (ih _ hfewer).evalSumRest,
      fun hfewer => (ih _ hfewer).evalProduct, fun hfewer => (ih _ hfewer).evalProductRest,
      fun hfewer => (ih _ hfewer).evalFactor⟩

end FailsBelow

theorem fails_tokensFrom {position : Nat} {cs : List Char}
    (h : tokensFrom source position cs = .error failure) : Fails w source failure := by
  fun_induction tokensFrom source position cs with
  | case1 => cases h
  | case2 =>
    cases h
    exact .unexpectedCharacter _
  | case3 position cs _ token rest _ ih =>
    cases hrest : tokensFrom source (position + (cs.length - rest.length)) rest with
    | error =>
      rw [hrest] at h
      cases h
      exact ih hrest
    | ok =>
      rw [hrest] at h
      cases h

/-- Whatever an expression fails with is one of these. -/
theorem fails_evaluate (h : evaluate source w = .error failure) : Fails w source failure := by
  unfold evaluate at h
  split at h
  · rename_i htokens
    cases h
    exact fails_tokensFrom htokens
  · cases h
    exact .emptyExpression
  · unfold evalTokens at h
    split at h
    · rename_i hsum
      cases h
      exact (FailsBelow.of_all w source _).evalSum hsum
    · cases h
    · cases h
      exact .trailingInput

end Expression

end Harbormaster
