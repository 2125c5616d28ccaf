import Harbormaster.Proofs.Expression.Grammar

/-!
Expressions written out. A tree is printed with the parentheses that its place asks for and
with any others, and its tokens are laid out with any white space, also with none: in a
derivation no two operands stand side by side, so each token ends where its own spelling
ends. Evaluating what was written gives back the value of the tree. Together with the
grammar this says what is evaluated, to what, and that everything else is refused.
-/

namespace Harbormaster.Expression

def enclose : Nat → List Token → List Token
  | 0, tokens => tokens
  | n + 1, tokens => .opening :: (enclose n tokens ++ [.closing])

def Level.rank : Level → Nat
  | sum => 0
  | product => 1
  | factor => 2

def Tree.level : Tree → Level
  | binary operation _ _ => operation.level
  | _ => .factor

def Tree.needed (tree : Tree) (level : Level) : Nat :=
  if tree.level.rank < level.rank then 1 else 0

/-- The tokens of a tree where a part of a level is wanted: each subtree has the parentheses
that it needs and as many further pairs as `extra` puts at its place, which is told by the
turns from the root, `true` to the right. -/
def Tree.print (tree : Tree) (extra : List Bool → Nat) (level : Level) : List Token :=
  enclose (extra [] + tree.needed level) <|
    match tree with
    | number value => [.number value]
    | path text => [.path text]
    | positive operand =>
      .operation .plus :: operand.print (fun place => extra (false :: place)) .factor
    | negative operand =>
      .operation .minus :: operand.print (fun place => extra (false :: place)) .factor
    | binary operation left right =>
      left.print (fun place => extra (false :: place)) operation.level ++
        .operation operation ::
          right.print (fun place => extra (true :: place)) operation.level.next

/-- Tokens written one after the other, with any white space around them. -/
inductive Laid : List Token → List Char → Prop where
  | done {blanks : List Char} (hblanks : ∀ c ∈ blanks, Text.isBlank c = true) : Laid [] blanks
  | token {blanks lexeme rest : List Char} {token : Token} {tokens : List Token}
      (hblanks : ∀ c ∈ blanks, Text.isBlank c = true) (hspells : Spells token lexeme)
      (hrest : Laid tokens rest) : Laid (token :: tokens) (blanks ++ (lexeme ++ rest))

variable {level : Level} {tokens more : List Token} {tree : Tree} {cs : List Char}

section Parentheses

/-- What binds as tightly as a level asks for, or tighter, is a part of it. -/
theorem Derives.loosen {tighter : Level} (h : Derives tighter tokens tree)
    (hrank : level.rank ≤ tighter.rank) : Derives level tokens tree := by
  cases level with
  | sum =>
    cases tighter with
    | sum => exact h
    | product => exact .part h
    | factor =>
      have hproduct : Derives .product tokens tree := .part h
      exact .part hproduct
  | product =>
    cases tighter with
    | sum => exact absurd hrank (by decide)
    | product => exact h
    | factor => exact .part h
  | factor =>
    cases tighter with
    | sum | product => exact absurd hrank (by decide)
    | factor => exact h

theorem Derives.enclose (h : Derives level tokens tree) (n : Nat) :
    Derives .factor (enclose (n + 1) tokens) tree := by
  induction n with
  | zero => exact .enclosed (h.loosen (Nat.zero_le _))
  | succ n ih => exact .enclosed (ih.loosen (Nat.zero_le _))

/-- A tree with the parentheses that it needs is a part of the level. -/
theorem Derives.enclose_needed {own : Level} (h : Derives own tokens tree)
    (hown : own = tree.level) (n : Nat) :
    Derives level (Expression.enclose (n + tree.needed level) tokens) tree := by
  subst hown
  have hfactor : ∀ m, Derives level (Expression.enclose (m + 1) tokens) tree := by
    intro m
    refine (h.enclose m).loosen ?_
    cases level with
    | sum | product | factor => exact Nat.le_of_ble_eq_true rfl
  unfold Tree.needed
  split
  · exact hfactor n
  · rename_i hrank
    cases n with
    | zero => exact h.loosen (Nat.not_lt.mp hrank)
    | succ m => exact hfactor m

/-- A printed tree is derived again. -/
theorem derives_print (tree : Tree) (extra : List Bool → Nat) (level : Level) :
    Derives level (tree.print extra level) tree := by
  induction tree generalizing extra level with
  | number value => exact (Derives.number value).enclose_needed rfl _
  | path text => exact (Derives.path text).enclose_needed rfl _
  | positive operand ih => exact (Derives.positive (ih _ _)).enclose_needed rfl _
  | negative operand ih => exact (Derives.negative (ih _ _)).enclose_needed rfl _
  | binary operation left right ihleft ihright =>
    exact (Derives.binary operation (ihleft _ _) (ihright _ _)).enclose_needed rfl _

end Parentheses

section Layout

variable {token : Token} {lexeme rest : List Char}

def Clear (tokens : List Token) : Prop :=
  ∀ token, tokens.head? = some token →
    (∀ value, token ≠ .number value) ∧ ∀ text, token ≠ .path text

theorem clear_nil : Clear [] := fun _ h => nomatch h

theorem clear_cons (hnumber : ∀ value, token ≠ .number value) (hpath : ∀ text, token ≠ .path text)
    (tokens : List Token) : Clear (token :: tokens) := by
  intro first hfirst
  cases hfirst
  exact ⟨hnumber, hpath⟩

theorem clear_operation (operation : Operation) (tokens : List Token) :
    Clear (.operation operation :: tokens) :=
  clear_cons (fun _ => Token.noConfusion) (fun _ => Token.noConfusion) tokens

theorem clear_opening (tokens : List Token) : Clear (.opening :: tokens) :=
  clear_cons (fun _ => Token.noConfusion) (fun _ => Token.noConfusion) tokens

theorem clear_closing (tokens : List Token) : Clear (.closing :: tokens) :=
  clear_cons (fun _ => Token.noConfusion) (fun _ => Token.noConfusion) tokens

theorem longest_of_token? (h : token? (lexeme ++ rest) = some (token, rest)) :
    Longest token lexeme rest := by
  obtain ⟨found, hsame, hlongest⟩ := token?_eq_some_iff.mp h
  rwa [List.append_cancel_right hsame] at hlongest

/-- A token other than an operand is one character, which goes on no operand. -/
theorem sign_of_clear (hclear : Clear (token :: tokens)) (h : Spells token lexeme) :
    (∃ c, lexeme = [c] ∧ isNameChar c = false ∧ c ≠ '.') ∧
      ∀ rest, Longest token lexeme rest := by
  obtain ⟨hnumber, hpath⟩ := hclear token rfl
  cases h with
  | whole | decimal => exact absurd rfl (hnumber _)
  | path => exact absurd rfl (hpath _)
  | operation op =>
    cases op with
    | plus | minus | times | dividedBy =>
      exact ⟨⟨_, rfl, by decide, by decide⟩, fun rest => longest_of_token? rfl⟩
  | opening | closing =>
    exact ⟨⟨_, rfl, by decide, by decide⟩, fun rest => longest_of_token? rfl⟩

/-- White space goes on no operand either. -/
theorem ends_of_blanks {blanks : List Char} (hblanks : ∀ c ∈ blanks, Text.isBlank c = true)
    (hrest : Ends rest) : Ends (blanks ++ rest) := by
  cases blanks with
  | nil => exact hrest
  | cons c others =>
    rintro _ ⟨⟩
    have hblank := hblanks c List.mem_cons_self
    refine ⟨not_isNameChar_of_isBlank hblank, ?_⟩
    rintro rfl
    exact absurd hblank (by decide)

theorem ends_of_laid (hclear : Clear tokens) (h : Laid tokens cs) : Ends cs := by
  cases h with
  | done hblanks =>
    rw [← List.append_nil cs]
    exact ends_of_blanks hblanks ends_nil
  | token hblanks hspells hrest =>
    obtain ⟨⟨c, rfl, hname, hdot⟩, -⟩ := sign_of_clear hclear hspells
    refine ends_of_blanks hblanks ?_
    rintro _ ⟨⟩
    exact ⟨hname, hdot⟩

theorem splits_of_clear (hclear : Clear (token :: tokens))
    (htokens : ∀ cs, Laid tokens cs → Splits cs tokens) (h : Laid (token :: tokens) cs) :
    Splits cs (token :: tokens) := by
  cases h with
  | token hblanks hspells hrest =>
    exact .token hblanks ((sign_of_clear hclear hspells).2 _) (htokens _ hrest)

theorem splits_of_operand (hclear : Clear tokens)
    (htokens : ∀ cs, Laid tokens cs → Splits cs tokens) (h : Laid (token :: tokens) cs) :
    Splits cs (token :: tokens) := by
  cases h with
  | token hblanks hspells hrest =>
    have hfound := token?_of_spells hspells (ends_of_laid hclear hrest)
    exact .token hblanks (longest_of_token? hfound) (htokens _ hrest)

/-- Derived tokens that are laid out split into themselves, whatever clear tokens follow. -/
theorem splits_of_laid (h : Derives level tokens tree) (hclear : Clear more)
    (hmore : ∀ cs, Laid more cs → Splits cs more) (hlaid : Laid (tokens ++ more) cs) :
    Splits cs (tokens ++ more) := by
  induction h generalizing more cs with
  | number | path => exact splits_of_operand hclear hmore hlaid
  | positive _ ih | negative _ ih =>
    exact splits_of_clear (clear_operation _ _) (fun _ => ih hclear hmore) hlaid
  | enclosed _ ih =>
    rw [List.cons_append, List.append_assoc] at hlaid ⊢
    have hclosing : ∀ cs, Laid ([.closing] ++ more) cs → Splits cs ([.closing] ++ more) :=
      fun _ => splits_of_clear (clear_closing _) hmore
    exact splits_of_clear (clear_opening _) (fun _ => ih (clear_closing _) hclosing) hlaid
  | part _ ih => exact ih hclear hmore hlaid
  | binary operation _ _ ihleft ihright =>
    rw [List.append_assoc, List.cons_append] at hlaid ⊢
    refine ihleft (clear_operation _ _) ?_ hlaid
    exact fun _ => splits_of_clear (clear_operation _ _) fun _ => ihright hclear hmore

end Layout

/-- Exactly the texts that split into tokens with a derivation, whose paths are numbers in
the world and which divide nothing by zero, are evaluated, to the value of the derived tree;
every other text is refused. A tree that is written out with enough parentheses and any white space
is evaluated to its own value. -/
theorem evaluate_follows_grammar (source : String) (w : World) :
    (∀ value, evaluate source w = .ok value ↔
      ∃ tokens, ∃ tree : Tree, Splits source.toList tokens ∧ Derives .sum tokens tree ∧
        tree.value? w = some value) ∧
    ((∃ failure, evaluate source w = .error failure) ↔
      ¬ ∃ tokens, ∃ tree : Tree, ∃ value, Splits source.toList tokens ∧
        Derives .sum tokens tree ∧ tree.value? w = some value) ∧
    ∀ (tree : Tree) extra, Laid (tree.print extra .sum) source.toList →
      ∀ value, evaluate source w = .ok value ↔ tree.value? w = some value := by
  have hvalue : ∀ value, evaluate source w = .ok value ↔
      ∃ tokens, ∃ tree : Tree, Splits source.toList tokens ∧ Derives .sum tokens tree ∧
        tree.value? w = some value := by
    intro value
    refine ⟨exists_derives_of_evaluate, ?_⟩
    rintro ⟨tokens, tree, hsplits, hderives, htree⟩
    exact (evaluate_of_derives hsplits hderives).mpr htree
  refine ⟨hvalue, ?_, ?_⟩
  · constructor
    · rintro ⟨failure, hfailure⟩ ⟨tokens, tree, value, hfound⟩
      rw [(hvalue value).mpr ⟨tokens, tree, hfound⟩] at hfailure
      cases hfailure
    · intro hnone
      cases hresult : evaluate source w with
      | error failure => exact ⟨failure, rfl⟩
      | ok value =>
        obtain ⟨tokens, tree, hfound⟩ := (hvalue value).mp hresult
        exact absurd ⟨tokens, tree, value, hfound⟩ hnone
  · intro tree extra hlaid value
    have hderives := derives_print tree extra .sum
    have hnone : ∀ cs, Laid [] cs → Splits cs [] := by
      rintro cs ⟨hblanks⟩
      exact .done hblanks
    rw [← List.append_nil (tree.print extra .sum)] at hlaid
    have hsplits := splits_of_laid hderives clear_nil hnone hlaid
    rw [List.append_nil] at hsplits
    exact evaluate_of_derives hsplits hderives

def breeze : World := { (default : World) with environment := .ofList [("wind", .number 10)] }

theorem breeze_is_evaluated :
    Laid ((Tree.binary .times (.number 2)
      (.binary .minus (.path "environment.wind") (.number 3))).print (fun _ => 0) .sum)
      "2*( environment.wind- 3)".toList ∧
    evaluate "2*( environment.wind- 3)" breeze = .ok 14 := by
  have hpath : Spells (.path "environment.wind") "environment.wind".toList :=
    @Spells.path 'e' "nvironment".toList ["wind".toList] rfl (List.all_eq_true.mp rfl)
      (List.cons_ne_nil _ _) (by simpa using ⟨by decide, List.all_eq_true.mp rfl⟩)
  have hdigit : ∀ {c : Char} {n : Number}, c.isDigit = true → decimalValue [c] [] = n →
      Spells (.number n) [c] := by
    rintro c _ hc rfl
    exact .whole ⟨List.cons_ne_nil _ _, by simpa using hc⟩
  have hnone : ∀ c ∈ [], Text.isBlank c = true := nofun
  have hblank : ∀ c ∈ [' '], Text.isBlank c = true := List.all_eq_true.mp rfl
  have hlaid : Laid ((Tree.binary .times (.number 2)
      (.binary .minus (.path "environment.wind") (.number 3))).print (fun _ => 0) .sum)
      "2*( environment.wind- 3)".toList := by
    have htext : "2*( environment.wind- 3)".toList =
        '2' :: '*' :: '(' :: ' ' :: ("environment.wind".toList ++ ['-', ' ', '3', ')']) := by
      decide +kernel
    rw [htext]
    exact @Laid.token [] ['2'] _ _ _ hnone (hdigit (by decide) (by decide +kernel)) <|
      @Laid.token [] ['*'] _ _ _ hnone (.operation .times) <|
      @Laid.token [] ['('] _ _ _ hnone .opening <|
      @Laid.token [' '] _ _ _ _ hblank hpath <|
      @Laid.token [] ['-'] _ _ _ hnone (.operation .minus) <|
      @Laid.token [' '] ['3'] _ _ _ hblank
        (hdigit (by decide) (by decide +kernel)) <|
      @Laid.token [] [')'] _ _ _ hnone .closing (.done hnone)
  exact ⟨hlaid, ((evaluate_follows_grammar _ breeze).2.2 _ _ hlaid 14).mpr (by decide +kernel)⟩

end Harbormaster.Expression
