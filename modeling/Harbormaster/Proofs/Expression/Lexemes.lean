import Harbormaster.Expression.Token

/-!
How a text splits into tokens. Each token has its spellings, and a text splits at every
place where white space ends, each time by the longest spelling that begins there. The
tokens that are found are exactly those of this split: a token that is read never falls
short of a spelling, and a spelling that nothing extends is read whole.
-/

namespace Harbormaster.Expression

structure IsDigits (cs : List Char) : Prop where
  nonempty : cs ≠ []
  digits : ∀ c ∈ cs, c.isDigit = true

structure IsName (cs : List Char) : Prop where
  nonempty : cs ≠ []
  chars : ∀ c ∈ cs, isNameChar c = true

def dotted (names : List (List Char)) : List Char := names.flatMap ('.' :: ·)

inductive Spells : Token → List Char → Prop where
  | whole {digits : List Char} (hdigits : IsDigits digits) :
      Spells (.number (decimalValue digits [])) digits
  | decimal {whole fraction : List Char} (hwhole : IsDigits whole)
      (hfraction : IsDigits fraction) :
      Spells (.number (decimalValue whole fraction)) (whole ++ '.' :: fraction)
  | path {first : Char} {name : List Char} {names : List (List Char)}
      (hfirst : isNameStart first = true) (hname : ∀ c ∈ name, isNameChar c = true)
      (hsome : names ≠ []) (hnames : ∀ n ∈ names, IsName n) :
      Spells (.path (.ofList (first :: name ++ dotted names))) (first :: name ++ dotted names)
  | operation (operation : Operation) :
      Spells (.operation operation) operation.symbol.toList
  | opening : Spells .opening ['(']
  | closing : Spells .closing [')']

/-- A token at the start of a text by its longest spelling: no longer beginning of the text
spells any token. -/
structure Longest (token : Token) (lexeme rest : List Char) : Prop where
  spells : Spells token lexeme
  longest : ∀ other longer after, Spells other longer → longer ++ after = lexeme ++ rest →
    longer.length ≤ lexeme.length

/-- A text as white space and tokens, each by its longest spelling. -/
inductive Splits : List Char → List Token → Prop where
  | done {blanks : List Char} (hblanks : ∀ c ∈ blanks, Text.isBlank c = true) : Splits blanks []
  | token {blanks lexeme rest : List Char} {token : Token} {tokens : List Token}
      (hblanks : ∀ c ∈ blanks, Text.isBlank c = true) (hlongest : Longest token lexeme rest)
      (hrest : Splits rest tokens) : Splits (blanks ++ (lexeme ++ rest)) (token :: tokens)

section Characters

variable {c : Char}

/-- Where the letters stand. -/
theorem isAlpha_iff : c.isAlpha = true ↔
    (65 ≤ c.toNat ∧ c.toNat ≤ 90) ∨ (97 ≤ c.toNat ∧ c.toNat ≤ 122) := by
  have hletter : c.isAlpha = (c.isUpper || c.isLower) := rfl
  have hupper : c.isUpper = decide (65 ≤ c.val ∧ c.val ≤ 90) := rfl
  have hlower : c.isLower = (decide (97 ≤ c.val) && decide (c.val ≤ 122)) := rfl
  have hval : c.toNat = c.val.toNat := rfl
  rw [hletter, hupper, hlower, hval]
  simp [UInt32.le_iff_toNat_le]

/-- Where the characters of names stand. -/
theorem toNat_of_isNameChar (h : isNameChar c = true) :
    (48 ≤ c.toNat ∧ c.toNat ≤ 57) ∨ (65 ≤ c.toNat ∧ c.toNat ≤ 90) ∨ c.toNat = 95 ∨
      (97 ≤ c.toNat ∧ c.toNat ≤ 122) := by
  simp only [isNameChar, Char.isAlphanum, isAlpha_iff, Char.isDigit, Bool.or_eq_true,
    Bool.and_eq_true, decide_eq_true_eq, beq_iff_eq, UInt32.le_iff_toNat_le, ge_iff_le] at h
  rcases h with hletter | rfl
  · have hval : c.toNat = c.val.toNat := rfl
    simp only [Char.reduceVal, UInt32.reduceToNat] at hletter
    omega
  · decide

theorem isNameChar_of_isNameStart (h : isNameStart c = true) : isNameChar c = true := by
  simp only [isNameStart, isNameChar, Char.isAlphanum, Bool.or_eq_true] at h ⊢
  rcases h with hletter | hunderscore
  · exact .inl (.inl hletter)
  · exact .inr hunderscore

theorem isNameChar_of_isDigit (h : c.isDigit = true) : isNameChar c = true := by
  simp [isNameChar, Char.isAlphanum, h]

theorem not_isDigit_of_isNameStart (h : isNameStart c = true) : c.isDigit = false := by
  simp only [isNameStart, isAlpha_iff, Char.isDigit, Bool.or_eq_true, beq_iff_eq,
    UInt32.le_iff_toNat_le, ge_iff_le, Bool.and_eq_false_iff, decide_eq_false_iff_not] at h ⊢
  rcases h with hletter | rfl
  · have hval : c.toNat = c.val.toNat := rfl
    simp only [Char.reduceVal, UInt32.reduceToNat]
    omega
  · decide

theorem not_isBlank_of_isNameChar (h : isNameChar c = true) : Text.isBlank c = false := by
  have hplace := toNat_of_isNameChar h
  simp only [Text.isBlank, Bool.or_eq_false_iff, Bool.and_eq_false_iff, decide_eq_false_iff_not,
    beq_eq_false_iff_ne]
  omega

theorem not_isNameChar_of_isBlank (h : Text.isBlank c = true) : isNameChar c = false := by
  cases hname : isNameChar c with
  | false => rfl
  | true => rw [not_isBlank_of_isNameChar hname] at h; cases h

end Characters

section Spans

variable {rest : List Char}

def Ends (rest : List Char) : Prop := ∀ c ∈ rest.head?, isNameChar c = false ∧ c ≠ '.'

theorem ends_nil : Ends [] := nofun

theorem Ends.digits (h : Ends rest) :
    rest.takeWhile Char.isDigit = [] ∧ rest.dropWhile Char.isDigit = rest := by
  cases rest with
  | nil => exact ⟨rfl, rfl⟩
  | cons c tail =>
    have hname := (h c rfl).1
    have hdigit : ¬ c.isDigit = true := fun hdigit => by
      rw [isNameChar_of_isDigit hdigit] at hname
      cases hname
    exact ⟨List.takeWhile_cons_of_neg hdigit, List.dropWhile_cons_of_neg hdigit⟩

theorem Ends.spanPath (h : Ends rest) : spanPath rest = ([], rest) := by
  cases rest with
  | nil => rfl
  | cons c tail =>
    obtain ⟨hname, hdot⟩ := h c rfl
    simp [Expression.spanPath, hname, hdot]

theorem spanPath_name {name : List Char} (hname : ∀ c ∈ name, isNameChar c = true)
    (rest : List Char) :
    spanPath (name ++ rest) = (name ++ (spanPath rest).1, (spanPath rest).2) := by
  induction name with
  | nil => rfl
  | cons c tail ih =>
    have hfirst : isNameChar c = true := hname c List.mem_cons_self
    have hrest := ih fun d hd => hname d (List.mem_cons_of_mem _ hd)
    rw [List.cons_append, spanPath, hrest]
    simp [hfirst]

theorem spanPath_dotted {names : List (List Char)} (hnames : ∀ n ∈ names, IsName n)
    (rest : List Char) :
    spanPath (dotted names ++ rest) = (dotted names ++ (spanPath rest).1, (spanPath rest).2) := by
  induction names with
  | nil => rfl
  | cons name tail ih =>
    have hname := hnames name List.mem_cons_self
    have hrest := ih fun n hn => hnames n (List.mem_cons_of_mem _ hn)
    obtain ⟨c, cs, rfl⟩ := List.exists_cons_of_ne_nil hname.nonempty
    have hfirst : isNameChar c = true := hname.chars c List.mem_cons_self
    have hspan := spanPath_name hname.chars (dotted tail ++ rest)
    rw [hrest] at hspan
    have hshape : dotted ((c :: cs) :: tail) ++ rest =
        '.' :: (c :: cs ++ (dotted tail ++ rest)) := by
      simp [dotted]
    rw [hshape, spanPath, hspan]
    simp [hfirst, dotted]

/-- A run of names joined by dots consists of a first one, which may be empty, and others
that are not. -/
theorem exists_dotted (cs : List Char) : ∃ name names, (∀ c ∈ name, isNameChar c = true) ∧
    (∀ n ∈ names, IsName n) ∧ (spanPath cs).1 = name ++ dotted names := by
  induction cs with
  | nil => exact ⟨[], [], nofun, nofun, rfl⟩
  | cons c rest ih =>
    obtain ⟨name, names, hname, hnames, hspan⟩ := ih
    by_cases hchar : isNameChar c = true
    · refine ⟨c :: name, names, ?_, hnames, ?_⟩
      · exact List.forall_mem_cons.mpr ⟨hchar, hname⟩
      · simp [spanPath, hchar, hspan]
    · by_cases hdot : (c == '.' && rest.head?.any isNameChar) = true
      · -- the name after a dot is not empty, because a name follows the dot
        have hsome : name ≠ [] := by
          rintro rfl
          cases rest with
          | nil => simp at hdot
          | cons d tail =>
            have hd : isNameChar d = true := by simpa using (Bool.and_eq_true_iff.mp hdot).2
            have hfirst : (spanPath (d :: tail)).1.head? = some d := by simp [spanPath, hd]
            rw [hspan, List.nil_append] at hfirst
            cases names with
            | nil => cases hfirst
            | cons n others =>
              cases hfirst
              exact absurd hd (by decide)
        refine ⟨[], name :: names, nofun, ?_, ?_⟩
        · exact List.forall_mem_cons.mpr ⟨⟨hsome, hname⟩, hnames⟩
        · have hc : c = '.' := beq_iff_eq.mp (Bool.and_eq_true_iff.mp hdot).1
          subst hc
          simp only [spanPath, hdot, Bool.or_true, if_true, hspan]
          simp [dotted]
      · refine ⟨[], [], nofun, nofun, ?_⟩
        simp [spanPath, hchar, hdot, dotted]

/-- Digits with a point behind them go on if a digit follows the point. -/
theorem spanDecimal_point {whole : List Char} (hwhole : ∀ c ∈ whole, c.isDigit = true)
    (tail : List Char) :
    spanDecimal (whole ++ '.' :: tail) =
      if (tail.takeWhile Char.isDigit).isEmpty then (whole, [], '.' :: tail)
      else (whole, tail.takeWhile Char.isDigit, tail.dropWhile Char.isDigit) := by
  have hpoint : ¬ Char.isDigit '.' = true := by decide
  unfold spanDecimal
  dsimp only
  rw [List.takeWhile_append_of_pos hwhole, List.dropWhile_append_of_pos hwhole,
    List.takeWhile_cons_of_neg hpoint, List.dropWhile_cons_of_neg hpoint, List.append_nil]
  rfl

theorem spanDecimal_whole {digits : List Char} (hdigits : IsDigits digits) (hends : Ends rest) :
    spanDecimal (digits ++ rest) = (digits, [], rest) := by
  obtain ⟨hnone, hall⟩ := hends.digits
  unfold spanDecimal
  dsimp only
  rw [List.takeWhile_append_of_pos hdigits.digits, List.dropWhile_append_of_pos hdigits.digits,
    hnone, hall, List.append_nil]
  split
  · exact absurd rfl (hends '.' rfl).2
  · rfl

theorem spanDecimal_decimal {whole fraction : List Char} (hwhole : IsDigits whole)
    (hfraction : IsDigits fraction) (rest : List Char) :
    spanDecimal (whole ++ '.' :: (fraction ++ rest)) =
      (whole, fraction ++ rest.takeWhile Char.isDigit, rest.dropWhile Char.isDigit) := by
  rw [spanDecimal_point hwhole.digits, List.takeWhile_append_of_pos hfraction.digits,
    List.dropWhile_append_of_pos hfraction.digits, if_neg]
  simp [hfraction.nonempty]

theorem length_spanDecimal_le (cs : List Char) :
    (spanDecimal cs).2.2.length ≤ (cs.dropWhile Char.isDigit).length := by
  unfold spanDecimal
  dsimp only
  split
  · rename_i tail hrest
    have hshorter := length_dropWhile_le Char.isDigit tail
    split
    · exact Nat.le_refl _
    · rw [hrest, List.length_cons]
      exact Nat.le_succ_of_le hshorter
  · exact Nat.le_refl _

end Spans

section Tokens

variable {cs lexeme rest : List Char} {token : Token}

theorem token?_digit {c : Char} (hdigit : c.isDigit = true) (rest : List Char) :
    token? (c :: rest) =
      some (.number (decimalValue (spanDecimal (c :: rest)).1 (spanDecimal (c :: rest)).2.1),
        (spanDecimal (c :: rest)).2.2) := by
  simp [token?, hdigit]

theorem token?_name {c : Char} (hstart : isNameStart c = true) (rest : List Char) :
    token? (c :: rest) =
      if (spanPath (c :: rest)).1.contains '.' then
        some (.path (.ofList (spanPath (c :: rest)).1), (spanPath (c :: rest)).2)
      else none := by
  simp [token?, not_isDigit_of_isNameStart hstart, hstart]

theorem spanPath_path {first : Char} {name : List Char} {names : List (List Char)}
    (hfirst : isNameStart first = true) (hname : ∀ c ∈ name, isNameChar c = true)
    (hnames : ∀ n ∈ names, IsName n) (rest : List Char) :
    spanPath (first :: name ++ dotted names ++ rest) =
      (first :: name ++ dotted names ++ (spanPath rest).1, (spanPath rest).2) := by
  have hwhole : ∀ c ∈ first :: name, isNameChar c = true :=
    List.forall_mem_cons.mpr ⟨isNameChar_of_isNameStart hfirst, hname⟩
  rw [List.append_assoc, spanPath_name hwhole, spanPath_dotted hnames, List.append_assoc]

/-- What a path takes is spelled as one. -/
theorem spells_spanPath {c : Char} (hstart : isNameStart c = true)
    (hdot : (spanPath (c :: rest)).1.contains '.' = true) :
    Spells (.path (.ofList (spanPath (c :: rest)).1)) (spanPath (c :: rest)).1 := by
  obtain ⟨name, names, hname, hnames, hspan⟩ := exists_dotted rest
  have hfirst := isNameChar_of_isNameStart hstart
  have hwhole : (spanPath (c :: rest)).1 = c :: name ++ dotted names := by
    simp [spanPath, hfirst, hspan]
  rw [hwhole] at hdot ⊢
  refine .path hstart hname ?_ hnames
  rintro rfl
  have hall : ∀ d ∈ c :: name, isNameChar d = true := List.forall_mem_cons.mpr ⟨hfirst, hname⟩
  rcases List.mem_append.mp (List.contains_iff_mem.mp hdot) with hmem | hmem
  · exact absurd (hall '.' hmem) (by decide)
  · cases hmem

/-- What a number takes is spelled as one. -/
theorem exists_spanDecimal {c : Char} (hdigit : c.isDigit = true) (rest : List Char) :
    ∃ lexeme, lexeme ++ (spanDecimal (c :: rest)).2.2 = c :: rest ∧
      Spells (.number (decimalValue (spanDecimal (c :: rest)).1 (spanDecimal (c :: rest)).2.1))
        lexeme := by
  have hall : ∀ {l : List Char}, ∀ d ∈ l.takeWhile Char.isDigit, d.isDigit = true :=
    List.all_eq_true.mp List.all_takeWhile
  have hwhole : IsDigits ((c :: rest).takeWhile Char.isDigit) := by
    refine ⟨?_, hall⟩
    rw [List.takeWhile_cons_of_pos hdigit]
    exact List.cons_ne_nil _ _
  have hcut :
      (c :: rest).takeWhile Char.isDigit ++ (c :: rest).dropWhile Char.isDigit = c :: rest :=
    List.takeWhile_append_dropWhile
  unfold spanDecimal
  dsimp only
  split
  · rename_i tail hrest
    split
    · exact ⟨_, hcut, .whole hwhole⟩
    · rename_i hsome
      refine ⟨_, ?_, .decimal hwhole ⟨?_, hall⟩⟩
      · rw [List.append_assoc, List.cons_append, List.takeWhile_append_dropWhile, ← hrest, hcut]
      · simpa using hsome
  · exact ⟨_, hcut, .whole hwhole⟩

theorem mem_dotted {names : List (List Char)} (h : names ≠ []) : '.' ∈ dotted names := by
  obtain ⟨name, others, rfl⟩ := List.exists_cons_of_ne_nil h
  exact List.mem_append_left _ List.mem_cons_self

/-- What is read is spelled by the characters that are taken. -/
theorem spells_of_token? (h : token? cs = some (token, rest)) :
    ∃ lexeme, lexeme ++ rest = cs ∧ Spells token lexeme := by
  cases cs with
  | nil => cases h
  | cons c tail =>
    by_cases hdigit : c.isDigit = true
    · rw [token?_digit hdigit] at h
      cases h
      exact exists_spanDecimal hdigit tail
    · by_cases hstart : isNameStart c = true
      · rw [token?_name hstart] at h
        split at h
        · rename_i hdot
          cases h
          exact ⟨_, spanPath_append (c :: tail), spells_spanPath hstart hdot⟩
        · cases h
      · simp only [token?, hdigit, hstart, Bool.false_eq_true, if_false] at h
        split at h
        case h_7 => cases h
        all_goals cases h
        · exact ⟨_, rfl, .operation .plus⟩
        · exact ⟨_, rfl, .operation .minus⟩
        · exact ⟨_, rfl, .operation .times⟩
        · exact ⟨_, rfl, .operation .dividedBy⟩
        · exact ⟨_, rfl, .opening⟩
        · exact ⟨_, rfl, .closing⟩

/-- A spelling that nothing extends is read whole. -/
theorem token?_of_spells (h : Spells token lexeme) (hends : Ends rest) :
    token? (lexeme ++ rest) = some (token, rest) := by
  cases h with
  | whole hdigits =>
    obtain ⟨c, cs, rfl⟩ := List.exists_cons_of_ne_nil hdigits.nonempty
    rw [List.cons_append, token?_digit (hdigits.digits c List.mem_cons_self), ← List.cons_append,
      spanDecimal_whole hdigits hends]
  | decimal hwhole hfraction =>
    obtain ⟨c, cs, rfl⟩ := List.exists_cons_of_ne_nil hwhole.nonempty
    obtain ⟨hnone, hall⟩ := hends.digits
    have hspan := spanDecimal_decimal hwhole hfraction rest
    rw [hnone, hall, List.append_nil] at hspan
    rw [List.append_assoc, List.cons_append, List.cons_append,
      token?_digit (hwhole.digits c List.mem_cons_self), ← List.cons_append, hspan]
  | path hfirst hname hsome hnames =>
    rw [List.cons_append, List.cons_append, token?_name hfirst, ← List.cons_append,
      ← List.cons_append, spanPath_path hfirst hname hnames, hends.spanPath, List.append_nil,
      if_pos]
    exact List.contains_iff_mem.mpr (List.mem_append_right _ (mem_dotted hsome))
  | operation op =>
    cases op with
    | plus | minus | times | dividedBy => rfl
  | opening | closing => rfl

/-- No more is left than after any spelling of a token. -/
theorem token?_reaches (h : Spells token lexeme) (rest : List Char) :
    ∃ found after, token? (lexeme ++ rest) = some (found, after) ∧ after.length ≤ rest.length := by
  cases h with
  | whole hdigits =>
    obtain ⟨c, cs, rfl⟩ := List.exists_cons_of_ne_nil hdigits.nonempty
    refine ⟨_, _, token?_digit (hdigits.digits c List.mem_cons_self) _, ?_⟩
    have hshorter := length_spanDecimal_le (c :: cs ++ rest)
    rw [List.dropWhile_append_of_pos hdigits.digits] at hshorter
    exact Nat.le_trans hshorter (length_dropWhile_le _ _)
  | decimal hwhole hfraction =>
    obtain ⟨c, cs, rfl⟩ := List.exists_cons_of_ne_nil hwhole.nonempty
    have hspan := spanDecimal_decimal hwhole hfraction rest
    rw [List.append_assoc, List.cons_append, List.cons_append,
      token?_digit (hwhole.digits c List.mem_cons_self), ← List.cons_append, hspan]
    exact ⟨_, _, rfl, length_dropWhile_le _ _⟩
  | path hfirst hname hsome hnames =>
    rw [List.cons_append, List.cons_append, token?_name hfirst, ← List.cons_append,
      ← List.cons_append, spanPath_path hfirst hname hnames, if_pos]
    · refine ⟨_, _, rfl, ?_⟩
      have hlength := congrArg List.length (spanPath_append rest)
      rw [List.length_append] at hlength
      exact Nat.le.intro ((Nat.add_comm _ _).trans hlength)
    · apply List.contains_iff_mem.mpr
      exact List.mem_append_left _ (List.mem_append_right _ (mem_dotted hsome))
  | operation op =>
    cases op with
    | plus | minus | times | dividedBy => exact ⟨_, _, rfl, Nat.le_refl _⟩
  | opening | closing => exact ⟨_, _, rfl, Nat.le_refl _⟩

/-- The token that is read is the longest one. -/
theorem token?_eq_some_iff :
    token? cs = some (token, rest) ↔ ∃ lexeme, lexeme ++ rest = cs ∧ Longest token lexeme rest := by
  constructor
  · intro h
    obtain ⟨lexeme, rfl, hspells⟩ := spells_of_token? h
    refine ⟨lexeme, rfl, hspells, ?_⟩
    intro other longer after hother hsame
    obtain ⟨found, left, hfound, hle⟩ := token?_reaches hother after
    rw [hsame, h] at hfound
    cases hfound
    have hlength := congrArg List.length hsame
    simp only [List.length_append] at hlength
    omega
  · rintro ⟨lexeme, rfl, hspells, hlongest⟩
    obtain ⟨found, left, hfound, hle⟩ := token?_reaches hspells rest
    obtain ⟨longer, hsame, hother⟩ := spells_of_token? hfound
    have hge := hlongest found longer left hother hsame
    have hlength := congrArg List.length hsame
    simp only [List.length_append] at hlength
    obtain ⟨rfl, rfl⟩ := List.append_inj hsame (by omega)
    -- both tokens are what is read of their one spelling alone
    have htoken := token?_of_spells hspells ends_nil
    have hagain := token?_of_spells hother ends_nil
    rw [htoken] at hagain
    cases hagain
    exact hfound

/-- A spelling begins with a character that is not white space. -/
theorem Spells.exists_cons (h : Spells token lexeme) :
    ∃ c tail, lexeme = c :: tail ∧ Text.isBlank c = false := by
  cases h with
  | whole hdigits =>
    obtain ⟨c, cs, rfl⟩ := List.exists_cons_of_ne_nil hdigits.nonempty
    have hdigit := hdigits.digits c List.mem_cons_self
    exact ⟨c, cs, rfl, not_isBlank_of_isNameChar (isNameChar_of_isDigit hdigit)⟩
  | decimal hwhole hfraction =>
    obtain ⟨c, cs, rfl⟩ := List.exists_cons_of_ne_nil hwhole.nonempty
    have hdigit := hwhole.digits c List.mem_cons_self
    exact ⟨c, _, rfl, not_isBlank_of_isNameChar (isNameChar_of_isDigit hdigit)⟩
  | path hfirst =>
    exact ⟨_, _, rfl, not_isBlank_of_isNameChar (isNameChar_of_isNameStart hfirst)⟩
  | operation op =>
    cases op with
    | plus | minus | times | dividedBy => exact ⟨_, _, rfl, by decide⟩
  | opening | closing => exact ⟨_, _, rfl, by decide⟩

theorem Spells.dropWhile_isBlank (h : Spells token lexeme) {blanks : List Char}
    (hblanks : ∀ c ∈ blanks, Text.isBlank c = true) (rest : List Char) :
    (blanks ++ (lexeme ++ rest)).dropWhile Text.isBlank = lexeme ++ rest := by
  obtain ⟨c, tail, rfl, hc⟩ := h.exists_cons
  rw [List.dropWhile_append_of_pos hblanks, List.cons_append, List.dropWhile_cons_of_neg]
  simp [hc]

variable {source : String} {position : Nat} {tokens : List Token}

theorem splits_of_tokensFrom (h : tokensFrom source position cs = .ok tokens) :
    Splits cs tokens := by
  fun_induction tokensFrom source position cs generalizing tokens with
  | case1 position cs hblank =>
    cases h
    exact .done (List.all_eq_true.mp hblank)
  | case2 => cases h
  | case3 position cs hblank token rest hfound ih =>
    cases hothers : tokensFrom source (position + (cs.length - rest.length)) rest with
    | error failure =>
      rw [hothers] at h
      cases h
    | ok others =>
      rw [hothers] at h
      cases h
      obtain ⟨lexeme, hlexeme, hlongest⟩ := token?_eq_some_iff.mp hfound
      have hblanks : ∀ c ∈ cs.takeWhile Text.isBlank, Text.isBlank c = true :=
        List.all_eq_true.mp List.all_takeWhile
      have hsplit := Splits.token hblanks hlongest (ih hothers)
      rwa [hlexeme, List.takeWhile_append_dropWhile] at hsplit

theorem tokensFrom_of_splits (h : Splits cs tokens) (source : String) (position : Nat) :
    tokensFrom source position cs = .ok tokens := by
  induction h generalizing position with
  | done hblanks => rw [tokensFrom, if_pos (List.all_eq_true.mpr hblanks)]
  | @token blanks lexeme rest token tokens hblanks hlongest hrest ih =>
    have hfound := token?_eq_some_iff.mpr ⟨lexeme, rfl, hlongest⟩
    rw [← hlongest.spells.dropWhile_isBlank hblanks rest] at hfound
    have hnot : ¬ (blanks ++ (lexeme ++ rest)).all Text.isBlank = true := by
      obtain ⟨c, tail, rfl, hc⟩ := hlongest.spells.exists_cons
      simp [hc]
    rw [tokensFrom, if_neg hnot]
    split
    · rename_i hnone
      rw [hfound] at hnone
      cases hnone
    · rename_i hsome
      rw [hfound] at hsome
      cases hsome
      rw [ih]
      rfl

/-- The tokens of a text are those of its split. -/
theorem tokens_eq_ok_iff : Expression.tokens source = .ok tokens ↔ Splits source.toList tokens :=
  ⟨splits_of_tokensFrom, fun h => tokensFrom_of_splits h source 0⟩

end Tokens

end Harbormaster.Expression
