import Harbormaster.Proofs.Text.Runs
import Harbormaster.Shell.Words

/-!
Arguments in quotes. An argument is typed as it is, if it is not empty and holds neither
white space nor quotes, or between two quotes of a kind that it does not hold; so every
text can be typed that does not hold both kinds. A line of such arguments after the name
of a command is read as they were meant, however much white space parts them.
-/

namespace Harbormaster.Shell

variable {text : String} {texts : List String} {written typed gap cs rest : List Char}
  {quote c : Char}

/-- The ways to type a text as one argument. -/
inductive Types : String → List Char → Prop where
  | bare {text : String} (hsome : text ≠ "") (hplain : ∀ c ∈ text.toList, isPlain c = true) :
      Types text text.toList
  | double {text : String} (hquote : '"' ∉ text.toList) :
      Types text ('"' :: (text.toList ++ ['"']))
  | single {text : String} (hquote : '\'' ∉ text.toList) :
      Types text ('\'' :: (text.toList ++ ['\'']))

/-- The ways to type arguments one after another, each with white space before it; there
may be some after the last one too. -/
inductive TypesEach : List String → List Char → Prop where
  | nil {gap : List Char} (hgap : ∀ c ∈ gap, Text.isBlank c = true) : TypesEach [] gap
  | cons {gap written typed : List Char} {text : String} {texts : List String}
      (hsome : gap ≠ []) (hgap : ∀ c ∈ gap, Text.isBlank c = true) (hfirst : Types text written)
      (hothers : TypesEach texts typed) : TypesEach (text :: texts) (gap ++ (written ++ typed))

def Parted (rest : List Char) : Prop := ∀ c ∈ rest.head?, Text.isBlank c = true

theorem TypesEach.parted (h : TypesEach texts typed) : Parted typed := by
  intro c hc
  cases h with
  | nil hgap => exact hgap c (List.mem_of_mem_head? hc)
  | cons hsome hgap =>
    rw [List.head?_append_of_ne_nil _ hsome] at hc
    exact hgap c (List.mem_of_mem_head? hc)

section Pieces

theorem isQuote_of_isBlank (h : Text.isBlank c = true) : isQuote c = false := by
  cases hquote : isQuote c with
  | false => rfl
  | true =>
    rcases Bool.or_eq_true_iff.mp hquote with hdouble | hsingle
    · rw [beq_iff_eq.mp hdouble] at h
      exact absurd h (by decide)
    · rw [beq_iff_eq.mp hsingle] at h
      exact absurd h (by decide)

theorem isPlain_of_isBlank (h : Text.isBlank c = true) : isPlain c = false := by
  simp [isPlain, h]

theorem isQuote_of_isPlain (h : isPlain c = true) : isQuote c = false := by
  simpa using (Bool.and_eq_true_iff.mp h).2

/-- No piece of a word starts where a word is parted from the next one. -/
theorem piece?_of_parted (h : Parted rest) : piece? rest = none := by
  cases rest with
  | nil => rfl
  | cons c rest =>
    have hblank : Text.isBlank c = true := h c rfl
    simp [piece?, isQuote_of_isBlank hblank, isPlain_of_isBlank hblank]

/-- A run of plain characters is a piece as far as it goes. -/
theorem piece?_plain (hsome : cs ≠ []) (hplain : ∀ c ∈ cs, isPlain c = true)
    (hparted : Parted rest) : piece? (cs ++ rest) = some (cs, rest) := by
  have hend : ∀ c ∈ rest.head?, isPlain c = false := fun c hc => isPlain_of_isBlank (hparted c hc)
  have htake := Text.takeWhile_run hplain hend
  have hdrop := Text.dropWhile_run hplain hend
  obtain ⟨first, others, rfl⟩ := List.exists_cons_of_ne_nil hsome
  have hfirst : isPlain first = true := hplain first List.mem_cons_self
  rw [List.cons_append] at htake hdrop ⊢
  simp [piece?, isQuote_of_isPlain hfirst, hfirst, htake, hdrop]

/-- A quoted text is a piece with its quotes, whatever is between them. -/
theorem piece?_quoted (hquote : isQuote quote = true) (htext : quote ∉ cs) (rest : List Char) :
    piece? (quote :: (cs ++ quote :: rest)) = some (quote :: (cs ++ [quote]), rest) := by
  have hinside : ∀ c ∈ cs, decide (c ≠ quote) = true :=
    fun c hc => decide_eq_true (ne_of_mem_of_not_mem hc htext)
  have hend : ∀ c ∈ (quote :: rest).head?, decide (c ≠ quote) = false := by
    rintro _ ⟨⟩
    exact decide_eq_false (not_not_intro rfl)
  have htake := Text.takeWhile_run hinside hend
  have hdrop := Text.dropWhile_run hinside hend
  simp only [piece?, hquote, htake, hdrop]
  rfl

/-- An argument is one piece: no cut falls into it, and none falls short of its end. -/
theorem Types.piece? (h : Types text written) (hparted : Parted rest) :
    Shell.piece? (written ++ rest) = some (written, rest) := by
  cases h with
  | bare hsome hplain => exact piece?_plain (by simpa using hsome) hplain hparted
  | double hquote => simpa using piece?_quoted (by decide) hquote rest
  | single hquote => simpa using piece?_quoted (by decide) hquote rest

theorem Types.ne_nil (h : Types text written) : written ≠ [] := by
  cases h with
  | bare hsome => simpa using hsome
  | double | single => exact List.cons_ne_nil _ _

end Pieces

section Words

theorem word_of_parted (h : Parted rest) : word rest = ([], rest) := by
  rw [word.eq_1]
  split
  · rename_i found
    rw [piece?_of_parted h] at found
    cases found
  · rfl

/-- A piece that is parted from what follows is a word. -/
theorem word_of_piece? (hpiece : piece? (cs ++ rest) = some (cs, rest)) (hparted : Parted rest) :
    word (cs ++ rest) = (cs, rest) := by
  rw [word.eq_1]
  split
  · rename_i found
    rw [hpiece] at found
    cases found
    rw [word_of_parted hparted, List.append_nil]
  · rename_i found
    rw [hpiece] at found
    cases found

/-- White space before the words of a text is passed over. -/
theorem words_blank (hgap : ∀ c ∈ gap, Text.isBlank c = true) (rest : List Char) :
    words (gap ++ rest) = words rest := by
  induction gap with
  | nil => rfl
  | cons c gap ih =>
    have hparted : Parted (c :: (gap ++ rest)) := by
      rintro _ ⟨⟩
      exact hgap c List.mem_cons_self
    rw [List.cons_append, words, dif_pos (by rw [word_of_parted hparted])]
    exact ih fun other hother => hgap other (List.mem_cons_of_mem _ hother)

theorem words_of_piece? (hsome : cs ≠ []) (hpiece : piece? (cs ++ rest) = some (cs, rest))
    (hparted : Parted rest) : words (cs ++ rest) = cs :: words rest := by
  have hword := word_of_piece? hpiece hparted
  obtain ⟨c, others, rfl⟩ := List.exists_cons_of_ne_nil hsome
  rw [List.cons_append] at hword ⊢
  rw [words, dif_neg (by rw [hword]; exact hsome), hword]

end Words

section Arguments

theorem unquote_of_isPlain (hplain : ∀ c ∈ cs, isPlain c = true) : unquote cs = cs := by
  unfold unquote
  split
  · rename_i first others last _
    simp [isQuote_of_isPlain (hplain first List.mem_cons_self)]
  · rfl

theorem unquote_quoted (hquote : isQuote quote = true) (cs : List Char) :
    unquote (quote :: (cs ++ [quote])) = cs := by
  have hlast : (quote :: (cs ++ [quote])).getLast? = some quote := by
    rw [← List.cons_append, List.getLast?_concat]
  simp only [unquote, hlast, hquote, beq_self_eq_true, Bool.and_self, if_true,
    List.dropLast_concat]

/-- An argument loses the quotes around it and nothing else. -/
theorem Types.unquote (h : Types text written) : Shell.unquote written = text.toList := by
  cases h with
  | bare hsome hplain => exact unquote_of_isPlain hplain
  | double => exact unquote_quoted (by decide) _
  | single => exact unquote_quoted (by decide) _

theorem TypesEach.words (h : TypesEach texts typed) :
    (Shell.words typed).map (fun a => String.ofList (Shell.unquote a)) = texts := by
  induction h with
  | @nil gap hgap =>
    have hnone := words_blank hgap []
    rw [List.append_nil] at hnone
    rw [hnone, Shell.words]
    rfl
  | cons hsome hgap hfirst hothers ih =>
    rw [words_blank hgap, words_of_piece? hfirst.ne_nil (hfirst.piece? hothers.parted)
      hothers.parted, List.map_cons, ih, hfirst.unquote, String.ofList_toList]

/-- A command is read with its name in small letters and with the arguments that were typed,
in their order, in whatever quotes each of them stands. -/
theorem arguments_survive_quoting {name : String} {lead : List Char}
    (hlead : ∀ c ∈ lead, Text.isBlank c = true) (hsome : name ≠ "")
    (hplain : ∀ c ∈ name.toList, isPlain c = true) (htyped : TypesEach texts typed) :
    Command.ofText (.ofList (lead ++ (name.toList ++ typed))) =
      ⟨Text.lowercase name, texts⟩ := by
  have hname : name.toList ≠ [] := by simpa using hsome
  have hwords : words (lead ++ (name.toList ++ typed)) = name.toList :: words typed := by
    rw [words_blank hlead, words_of_piece? hname (piece?_plain hname hplain htyped.parted)
      htyped.parted]
  simp only [Command.ofText, String.toList_ofList, hwords, String.ofList_toList, htyped.words]

/-- An argument of each kind, an empty one and one with a line break among them. -/
theorem zone_survives_quoting :
    Command.ofText " SET zone\t'the \"inner\" dock' \"\"  \"pilot's\nberth\" " =
      ⟨"set", ["zone", "the \"inner\" dock", "", "pilot's\nberth"]⟩ := by
  have hblank : ∀ c ∈ [' '], Text.isBlank c = true := by simp [Text.isBlank]
  have htyped : TypesEach ["zone", "the \"inner\" dock", "", "pilot's\nberth"]
      " zone\t'the \"inner\" dock' \"\"  \"pilot's\nberth\" ".toList :=
    .cons (by simp) hblank (.bare (by simp) (List.all_eq_true.mp (by decide))) <|
      @TypesEach.cons ['\t'] _ _ _ _ (by simp) (by simp [Text.isBlank]) (.single (by decide)) <|
      .cons (by simp) hblank (.double (by decide)) <|
      @TypesEach.cons [' ', ' '] _ _ _ _ (by simp) (by simp [Text.isBlank]) (.double (by decide)) <|
      .nil hblank
  have hread := arguments_survive_quoting hblank (by decide : "SET" ≠ "")
    (List.all_eq_true.mp (by decide)) htyped
  have hname : Text.lowercase "SET" = "set" := by decide +kernel
  rw [hname] at hread
  exact hread

end Arguments

end Harbormaster.Shell
