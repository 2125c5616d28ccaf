import Harbormaster.Expression.Evaluation
import Harbormaster.Proofs.Expression.Lexemes

/-!
The grammar of expressions, as derivations of trees from lists of tokens, and the value of
a tree. The evaluator computes values while it reads, without a tree; what it reads at a
level is derived there, and whatever is derived is read with the value of its tree. Sums
and products are read alike, a first part and then operations with further parts, so both
are treated as one reader that a level is given to.
-/

namespace Harbormaster.Expression

/-- How tightly the parts of an expression bind. -/
inductive Level where
  | sum | product | factor
  deriving DecidableEq, Repr

def Level.next : Level → Level
  | sum => product
  | product | factor => factor

def Operation.level : Operation → Level
  | plus | minus => .sum
  | times | dividedBy => .product

def Operation.result? (operation : Operation) (a b : Number) : Option Number :=
  match operation with
  | plus => some (a + b)
  | minus => some (a - b)
  | times => some (a * b)
  | dividedBy => if b.eq 0 then none else some (a / b)

inductive Tree where
  | number (value : Number)
  | path (text : String)
  | positive (operand : Tree)
  | negative (operand : Tree)
  | binary (operation : Operation) (left right : Tree)

/-- The value of an expression in a world, if all its paths are numbers there and it
divides nothing by zero. -/
def Tree.value? (w : World) : Tree → Option Number
  | number value => some value
  | path text =>
    match w.read text with
    | .ok (.number value) => some value
    | _ => none
  | positive operand => operand.value? w
  | negative operand => (operand.value? w).map (- ·)
  | binary operation left right =>
    (left.value? w).bind fun a => (right.value? w).bind fun b => operation.result? a b

/-- The derivations of the grammar. Operations of one level associate to the left: what
stands to the left of one is of its level, what stands to the right of the next. -/
inductive Derives : Level → List Token → Tree → Prop where
  | number (value : Number) : Derives .factor [.number value] (.number value)
  | path (text : String) : Derives .factor [.path text] (.path text)
  | positive {tokens : List Token} {tree : Tree} (h : Derives .factor tokens tree) :
      Derives .factor (.operation .plus :: tokens) (.positive tree)
  | negative {tokens : List Token} {tree : Tree} (h : Derives .factor tokens tree) :
      Derives .factor (.operation .minus :: tokens) (.negative tree)
  | enclosed {tokens : List Token} {tree : Tree} (h : Derives .sum tokens tree) :
      Derives .factor (.opening :: (tokens ++ [.closing])) tree
  | part {level : Level} {tokens : List Token} {tree : Tree} (h : Derives level.next tokens tree) :
      Derives level tokens tree
  | binary {left right : List Token} {a b : Tree} (operation : Operation)
      (hleft : Derives operation.level left a) (hright : Derives operation.level.next right b) :
      Derives operation.level (left ++ .operation operation :: right) (.binary operation a b)

variable {w : World} {source : String} {level : Level} {tokens rest : List Token}
  {value : Number}

theorem Derives.ne_nil {tree : Tree} (h : Derives level tokens tree) : tokens ≠ [] := by
  induction h with
  | number | path | positive | negative | enclosed => exact List.cons_ne_nil _ _
  | part _ ih => exact ih
  | binary => simp

section Reading

def handed {p : List Token → Prop} (x : Except Failure (Number × { rest : List Token // p rest })) :
    Option (Number × List Token) :=
  match x with
  | .ok (value, rest) => some (value, rest.val)
  | .error _ => none

/-- Reads a part of a level. -/
def read (w : World) (source : String) (level : Level) (tokens : List Token) :
    Option (Number × List Token) :=
  match level with
  | .sum => handed (evalSum w source tokens)
  | .product => handed (evalProduct w source tokens)
  | .factor => handed (evalFactor w source tokens)

def readOn (w : World) (source : String) (level : Level) (value : Number) (tokens : List Token) :
    Option (Number × List Token) :=
  match level with
  | .sum => handed (evalSumRest w source value tokens)
  | .product => handed (evalProductRest w source value tokens)
  | .factor => some (value, tokens)

/-- Tokens that do not begin with an operation of a level. -/
def Stops (level : Level) (tokens : List Token) : Prop :=
  ∀ operation, tokens.head? = some (.operation operation) → operation.level ≠ level

theorem stops_nil : Stops level [] := nofun

theorem stops_closing : Stops level (.closing :: rest) := nofun

theorem stops_factor : Stops .factor tokens := by
  intro operation _
  cases operation with
  | plus | minus | times | dividedBy => exact Level.noConfusion

theorem level_ne_next (operation : Operation) : operation.level ≠ operation.level.next := by
  cases operation with
  | plus | minus | times | dividedBy => exact Level.noConfusion

theorem next_next (level : Level) : level.next.next = .factor := by
  cases level with
  | sum | product | factor => rfl

/-- A part of a level is a part of the next one with the operations that follow. -/
theorem read_eq (w : World) (source : String) (level : Level) (tokens : List Token) :
    read w source level tokens =
      (read w source level.next tokens).bind fun r => readOn w source level r.1 r.2 := by
  cases level with
  | sum =>
    change handed (evalSum w source tokens) =
      (handed (evalProduct w source tokens)).bind fun r => handed (evalSumRest w source r.1 r.2)
    rw [evalSum]
    cases evalProduct w source tokens with
    | error failure => rfl
    | ok found =>
      dsimp only [handed, Option.bind_some]
      cases evalSumRest w source found.1 found.2.val with
      | error failure => rfl
      | ok final => rfl
  | product =>
    change handed (evalProduct w source tokens) =
      (handed (evalFactor w source tokens)).bind fun r => handed (evalProductRest w source r.1 r.2)
    rw [evalProduct]
    cases evalFactor w source tokens with
    | error failure => rfl
    | ok found =>
      dsimp only [handed, Option.bind_some]
      cases evalProductRest w source found.1 found.2.val with
      | error failure => rfl
      | ok final => rfl
  | factor =>
    change _ = (read w source .factor tokens).bind some
    rw [Option.bind_fun_some]

/-- An operation of a level is applied to the value and to the part that follows it. -/
theorem readOn_operation (w : World) (source : String) (operation : Operation) (value : Number)
    (tokens : List Token) :
    readOn w source operation.level value (.operation operation :: tokens) =
      (read w source operation.level.next tokens).bind fun r =>
        (operation.result? value r.1).bind fun v => readOn w source operation.level v r.2 := by
  cases operation with
  | plus | minus =>
    dsimp only [readOn, read, Operation.level, Level.next]
    rw [evalSumRest]
    cases evalProduct w source tokens with
    | error failure => rfl
    | ok found =>
      dsimp only [handed, Option.bind_some, Operation.result?]
      cases evalSumRest w source _ found.2.val with
      | error failure => rfl
      | ok final => rfl
  | times =>
    dsimp only [readOn, read, Operation.level, Level.next]
    rw [evalProductRest]
    cases evalFactor w source tokens with
    | error failure => rfl
    | ok found =>
      dsimp only [handed, Option.bind_some, Operation.result?]
      cases evalProductRest w source _ found.2.val with
      | error failure => rfl
      | ok final => rfl
  | dividedBy =>
    dsimp only [readOn, read, Operation.level, Level.next]
    rw [evalProductRest]
    cases evalFactor w source tokens with
    | error failure => rfl
    | ok found =>
      dsimp only [handed, Option.bind_some, Operation.result?]
      cases found.1.eq 0 with
      | true => rfl
      | false =>
        simp only [Bool.false_eq_true, if_false, Option.bind_some]
        cases evalProductRest w source _ found.2.val with
        | error failure => rfl
        | ok final => rfl

theorem readOn_stops (h : Stops level tokens) (value : Number) :
    readOn w source level value tokens = some (value, tokens) := by
  cases level with
  | sum =>
    dsimp only [readOn]
    unfold evalSumRest
    split
    · exact absurd rfl (h .plus rfl)
    · exact absurd rfl (h .minus rfl)
    · rfl
  | product =>
    dsimp only [readOn]
    unfold evalProductRest
    split
    · exact absurd rfl (h .times rfl)
    · exact absurd rfl (h .dividedBy rfl)
    · rfl
  | factor => rfl

theorem read_number (value : Number) (tail : List Token) :
    read w source .factor (.number value :: tail) = some (value, tail) := by
  rw [read, evalFactor]
  rfl

theorem read_path (text : String) (tail : List Token) :
    read w source .factor (.path text :: tail) =
      ((Tree.path text).value? w).map fun value => (value, tail) := by
  rw [read, evalFactor, operand, Tree.value?]
  cases w.read text with
  | error failure => rfl
  | ok found =>
    cases found with
    | number => rfl
    | missing | absent | boolean | text | list | record | native | fallback => rfl

theorem read_plus (tail : List Token) :
    read w source .factor (.operation .plus :: tail) = read w source .factor tail := by
  rw [read, read, evalFactor]
  cases evalFactor w source tail with
  | error failure => rfl
  | ok found => rfl

theorem read_minus (tail : List Token) :
    read w source .factor (.operation .minus :: tail) =
      (read w source .factor tail).map fun r => (-r.1, r.2) := by
  rw [read, read, evalFactor]
  cases evalFactor w source tail with
  | error failure => rfl
  | ok found => rfl

def closed : Number × List Token → Option (Number × List Token)
  | (value, .closing :: rest) => some (value, rest)
  | _ => none

theorem read_opening (tail : List Token) :
    read w source .factor (.opening :: tail) = (read w source .sum tail).bind closed := by
  rw [read, read, evalFactor]
  cases evalSum w source tail with
  | error failure => rfl
  | ok found =>
    obtain ⟨value, left, hfewer⟩ := found
    cases left with
    | nil => rfl
    | cons token rest =>
      cases token with
      | number | path | operation | opening | closing => rfl

/-- Nothing else begins a factor. -/
theorem read_other {token : Token} {tail : List Token}
    (h : token = .closing ∨ token = .operation .times ∨ token = .operation .dividedBy) :
    read w source .factor (token :: tail) = none := by
  rw [read]
  unfold evalFactor
  obtain rfl | rfl | rfl := h
  · rfl
  · rfl
  · rfl

theorem read_nil : read w source .factor [] = none := by
  rw [read, evalFactor]
  rfl

end Reading

section Completeness

/-- Whatever is derived at a level is read there, with the value of its tree, and the
operations that follow are read on; without a value nothing is read. -/
theorem read_of_derives {tree : Tree} (h : Derives level tokens tree)
    (hstops : Stops level.next rest) :
    read w source level (tokens ++ rest) =
      (tree.value? w).bind fun value => readOn w source level value rest := by
  induction h generalizing rest with
  | number value => exact read_number value rest
  | path text =>
    rw [List.singleton_append, read_path, Option.map_eq_bind]
    rfl
  | positive _ ih => rw [List.cons_append, read_plus, ih hstops, Tree.value?]
  | negative _ ih =>
    rw [List.cons_append, read_minus, ih hstops, Tree.value?]
    cases Tree.value? w _ with
    | none => rfl
    | some value => rfl
  | enclosed _ ih =>
    rw [List.cons_append, List.append_assoc, List.singleton_append, read_opening,
      ih stops_closing]
    cases Tree.value? w _ with
    | none => rfl
    | some value =>
      rw [Option.bind_some, readOn_stops stops_closing]
      rfl
  | @part level tokens tree _ ih =>
    have hfactor : Stops level.next.next rest := by
      rw [next_next]
      exact stops_factor
    rw [read_eq, ih hfactor]
    cases tree.value? w with
    | none => rfl
    | some value => rw [Option.bind_some, readOn_stops hstops, Option.bind_some, Option.bind_some]
  | @binary left right a b operation _ _ ihleft ihright =>
    have hoperation : Stops operation.level.next (.operation operation :: (right ++ rest)) := by
      intro other hother
      cases hother
      exact level_ne_next operation
    have hfactor : Stops operation.level.next.next rest := by
      rw [next_next]
      exact stops_factor
    rw [List.append_assoc, List.cons_append, ihleft hoperation, Tree.value?]
    cases a.value? w with
    | none => rfl
    | some x =>
      rw [Option.bind_some, Option.bind_some, readOn_operation, ihright hfactor]
      cases b.value? w with
      | none => rfl
      | some y => rw [Option.bind_some, Option.bind_some, readOn_stops hstops, Option.bind_some]

end Completeness

section Soundness

/-- Whatever is read at a level is derived there, and its value is that of the tree. -/
def Finds (w : World) (source : String) (level : Level) (tokens : List Token) : Prop :=
  ∀ value rest, read w source level tokens = some (value, rest) →
    ∃ taken tree, tokens = taken ++ rest ∧ Derives level taken tree ∧ tree.value? w = some value

variable (hbelow : ∀ shorter : List Token, shorter.length < tokens.length →
  ∀ level, Finds w source level shorter)

include hbelow

theorem finds_factor : Finds w source .factor tokens := by
  intro value rest h
  match tokens with
  | [] => rw [read_nil] at h; cases h
  | .number n :: tail =>
    rw [read_number] at h
    cases h
    exact ⟨[.number value], .number value, rfl, .number value, rfl⟩
  | .path text :: tail =>
    rw [read_path] at h
    obtain ⟨n, hn, hpair⟩ := Option.map_eq_some_iff.mp h
    cases hpair
    exact ⟨[.path text], .path text, rfl, .path text, hn⟩
  | .operation .plus :: tail =>
    rw [read_plus] at h
    obtain ⟨taken, tree, rfl, hderives, hvalue⟩ :=
      hbelow tail (Nat.lt_succ_self _) .factor value rest h
    exact ⟨_, .positive tree, rfl, .positive hderives, hvalue⟩
  | .operation .minus :: tail =>
    rw [read_minus] at h
    obtain ⟨⟨n, left⟩, hread, hpair⟩ := Option.map_eq_some_iff.mp h
    cases hpair
    obtain ⟨taken, tree, rfl, hderives, hvalue⟩ :=
      hbelow tail (Nat.lt_succ_self _) .factor n left hread
    refine ⟨_, .negative tree, rfl, .negative hderives, ?_⟩
    rw [Tree.value?, hvalue]
    rfl
  | .opening :: tail =>
    rw [read_opening] at h
    obtain ⟨⟨n, left⟩, hread, hclosed⟩ := Option.bind_eq_some_iff.mp h
    obtain ⟨taken, tree, rfl, hderives, hvalue⟩ :=
      hbelow tail (Nat.lt_succ_self _) .sum n left hread
    unfold closed at hclosed
    split at hclosed
    · cases hclosed
      rename_i hpair
      cases hpair
      refine ⟨_, tree, ?_, .enclosed hderives, hvalue⟩
      simp
    · cases hclosed
  | .operation .times :: tail => rw [read_other (.inr (.inl rfl))] at h; cases h
  | .operation .dividedBy :: tail => rw [read_other (.inr (.inr rfl))] at h; cases h
  | .closing :: tail => rw [read_other (.inl rfl)] at h; cases h

omit hbelow in
/-- What has been derived grows with each operation that is read on. -/
theorem derives_readOn {bound : Nat}
    (hbelow : ∀ shorter : List Token, shorter.length < bound →
      ∀ level, Finds w source level shorter)
    (hbound : tokens.length ≤ bound) {taken : List Token} {tree : Tree} {final : Number}
    (htaken : Derives level taken tree) (hvalue : tree.value? w = some value)
    (h : readOn w source level value tokens = some (final, rest)) :
    ∃ more whole, tokens = more ++ rest ∧ Derives level (taken ++ more) whole ∧
      whole.value? w = some final := by
  induction hsize : tokens.length using Nat.strongRecOn generalizing tokens taken tree value with
  | ind size ih =>
    by_cases hoperation : ∃ operation tail, tokens = .operation operation :: tail ∧
        operation.level = level
    · obtain ⟨operation, tail, rfl, rfl⟩ := hoperation
      rw [List.length_cons] at hsize hbound
      rw [readOn_operation] at h
      obtain ⟨⟨n, left⟩, hread, hrest⟩ := Option.bind_eq_some_iff.mp h
      obtain ⟨result, happly, hon⟩ := Option.bind_eq_some_iff.mp hrest
      dsimp only at happly hon
      obtain ⟨part, operand, rfl, hpart, hoperand⟩ := hbelow tail hbound _ n left hread
      rw [List.length_append] at hsize hbound
      have hbinary := Derives.binary operation htaken hpart
      have hresult : (Tree.binary operation tree operand).value? w = some result := by
        rw [Tree.value?, hvalue, hoperand]
        exact happly
      obtain ⟨more, whole, rfl, hwhole, hfinal⟩ :=
        ih left.length (by omega) (by omega) hbinary hresult hon rfl
      refine ⟨.operation operation :: (part ++ more), whole, ?_, ?_, hfinal⟩
      · simp
      · simpa using hwhole
    · have hstops : Stops level tokens := by
        intro operation hhead hlevel
        obtain ⟨tail, htail⟩ := List.head?_eq_some_iff.mp hhead
        exact hoperation ⟨operation, tail, htail, hlevel⟩
      rw [readOn_stops hstops] at h
      cases h
      exact ⟨[], tree, rfl, by rwa [List.append_nil], hvalue⟩

/-- If the next level finds only what is derived, so does a level. -/
theorem finds_of_next (hnext : Finds w source level.next tokens) : Finds w source level tokens := by
  intro value rest h
  rw [read_eq] at h
  obtain ⟨⟨n, left⟩, hread, hon⟩ := Option.bind_eq_some_iff.mp h
  obtain ⟨taken, tree, rfl, hderives, hvalue⟩ := hnext n left hread
  obtain ⟨more, whole, rfl, hwhole, hfinal⟩ := derives_readOn hbelow
    (by simp) (.part hderives) hvalue hon
  exact ⟨taken ++ more, whole, (List.append_assoc _ _ _).symm, hwhole, hfinal⟩

omit hbelow in
/-- What is read is derived, by induction on the number of tokens: inside a factor there are
fewer of them, and a sum is read by products, a product by factors. -/
theorem finds (w : World) (source : String) (level : Level) (tokens : List Token) :
    Finds w source level tokens := by
  induction hsize : tokens.length using Nat.strongRecOn generalizing level tokens with
  | ind size ih =>
    have hbelow : ∀ shorter : List Token, shorter.length < tokens.length →
        ∀ level, Finds w source level shorter := by
      intro shorter hshorter level
      exact ih shorter.length (hsize ▸ hshorter) level shorter rfl
    have hfactor : Finds w source .factor tokens := finds_factor hbelow
    have hproduct : Finds w source .product tokens := finds_of_next hbelow hfactor
    cases level with
    | sum => exact finds_of_next hbelow hproduct
    | product => exact hproduct
    | factor => exact hfactor

end Soundness

section Evaluation

theorem evalTokens_eq_ok_iff :
    evalTokens w source tokens = .ok value ↔ read w source .sum tokens = some (value, []) := by
  rw [read, evalTokens]
  cases evalSum w source tokens with
  | error failure => simp [handed]
  | ok found =>
    obtain ⟨n, left, hfewer⟩ := found
    cases left with
    | nil => simp [handed]
    | cons token tail => simp [handed]

theorem evaluate_of_splits (hsplits : Splits source.toList tokens) (hne : tokens ≠ []) :
    evaluate source w = evalTokens w source tokens := by
  unfold evaluate
  rw [tokens_eq_ok_iff.mpr hsplits]
  cases tokens with
  | nil => exact absurd rfl hne
  | cons token tail => rfl

/-- A text with a derivation has the value of its tree, and no other. -/
theorem evaluate_of_derives {tree : Tree} (hsplits : Splits source.toList tokens)
    (hderives : Derives .sum tokens tree) :
    evaluate source w = .ok value ↔ tree.value? w = some value := by
  rw [evaluate_of_splits hsplits hderives.ne_nil, evalTokens_eq_ok_iff]
  have hread := @read_of_derives w source _ _ _ _ hderives stops_nil
  rw [List.append_nil] at hread
  rw [hread]
  cases tree.value? w with
  | none => simp
  | some found =>
    rw [Option.bind_some, readOn_stops stops_nil]
    simp

/-- A text that has a value has a derivation. -/
theorem exists_derives_of_evaluate (h : evaluate source w = .ok value) :
    ∃ tokens tree, Splits source.toList tokens ∧ Derives .sum tokens tree ∧
      tree.value? w = some value := by
  cases htokens : Expression.tokens source with
  | error failure =>
    rw [evaluate, htokens] at h
    cases h
  | ok tokens =>
    have hsplits := tokens_eq_ok_iff.mp htokens
    have hne : tokens ≠ [] := by
      rintro rfl
      rw [evaluate, htokens] at h
      cases h
    rw [evaluate_of_splits hsplits hne, evalTokens_eq_ok_iff] at h
    obtain ⟨taken, tree, htaken, hderives, hvalue⟩ := finds w source .sum tokens value [] h
    rw [List.append_nil] at htaken
    subst htaken
    exact ⟨tokens, tree, hsplits, hderives, hvalue⟩

end Evaluation

end Harbormaster.Expression
