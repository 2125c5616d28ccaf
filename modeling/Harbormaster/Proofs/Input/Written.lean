import Harbormaster.Proofs.Input.Spelling

/-!
Inputs written out. A type stands in front of a colon, and parameters stand behind it, each
with its name, an equals sign and the text of its value; white space goes wherever a hand may
leave it, and so do commas with nothing between them. What is read is the type and the
parameters that were meant, but for one under the name of what records fall back on: that is
lost. A separator that has had its turn is a character like any other, so the text of a value
may hold colons and equals signs.
-/

namespace Harbormaster.Input

/-- A parameter as it is meant: its name, and the text of its value. -/
structure Parameter where
  name : String
  text : String
  name_ne : name ≠ ""
  name_trim : Text.trim name = name
  name_equals : '=' ∉ name.toList
  name_comma : ',' ∉ name.toList
  text_trim : Text.trim text = text
  text_comma : ',' ∉ text.toList

/-- The name of a parameter and the value that its text stands for. -/
def Parameter.member (p : Parameter) : String × Value := (p.name, readLiteral p.text)

/-- The ways to write a parameter in one piece. -/
inductive Parameter.Writes (p : Parameter) : List Char → Prop where
  | mk {a b c d : List Char} (ha : Text.Blank a) (hb : Text.Blank b) (hc : Text.Blank c)
      (hd : Text.Blank d) :
      Writes p (a ++ (p.name.toList ++ b) ++ '=' :: (c ++ (p.text.toList ++ d)))

inductive WritesEach : List Parameter → List (List Char) → Prop where
  | nil : WritesEach [] []
  | blank {parameters : List Parameter} {piece : List Char} {pieces : List (List Char)}
      (hblank : Text.Blank piece) (hothers : WritesEach parameters pieces) :
      WritesEach parameters (piece :: pieces)
  | cons {p : Parameter} {parameters : List Parameter} {piece : List Char}
      {pieces : List (List Char)} (hpiece : p.Writes piece)
      (hothers : WritesEach parameters pieces) : WritesEach (p :: parameters) (piece :: pieces)

/-- The ways to write an input: its type alone, or its type and parameters with commas between
the pieces. -/
inductive Writes (type : String) : List Parameter → String → Prop where
  | bare : Writes type [] type
  | listed {parameters : List Parameter} {pieces : List (List Char)}
      (hpieces : WritesEach parameters pieces) :
      Writes type parameters (type ++ ":" ++ .ofList ([','].intercalate pieces))

section Pieces

variable {p : Parameter} {parameters : List Parameter} {piece : List Char}
  {found : List (List Char)} {c : Char} {cs : List Char}

theorem notMem_of_blank (hcs : Text.Blank cs) (hc : Text.isBlank c = false) : c ∉ cs := by
  intro hmember
  rw [hcs c hmember] at hc
  cases hc

theorem toList_trimmed {s : String} (h : Text.trim s = s) : Text.trimChars s.toList = s.toList := by
  rw [← Text.toList_trim, h]

theorem readLiteral_congr {s t : String} (h : Text.trim s = Text.trim t) :
    readLiteral s = readLiteral t := by
  unfold readLiteral
  rw [h]

theorem Parameter.Writes.comma_notMem (h : p.Writes piece) : ',' ∉ piece := by
  obtain ⟨ha, hb, hc, hd⟩ := h
  have hcomma : Text.isBlank ',' = false := by decide
  simp [notMem_of_blank ha hcomma, notMem_of_blank hb hcomma, notMem_of_blank hc hcomma,
    notMem_of_blank hd hcomma, p.name_comma, p.text_comma]

/-- The name of a parameter ends at the first equals sign, and its text goes on to the end. -/
theorem Parameter.Writes.reading (h : p.Writes piece) :
    Assigns piece ∧ Input.reading piece = p.member := by
  obtain ⟨ha, hb, hc, hd⟩ := h
  rename_i a b c d
  have hequals : Text.isBlank '=' = false := by decide
  have hfirst : '=' ∉ a ++ (p.name.toList ++ b) := by
    simp [notMem_of_blank ha hequals, notMem_of_blank hb hequals, p.name_equals]
  have hname : namePart (a ++ (p.name.toList ++ b) ++ '=' :: (c ++ (p.text.toList ++ d))) =
      a ++ (p.name.toList ++ b) := Text.before_append hfirst _
  have htext : Text.after '=' (a ++ (p.name.toList ++ b) ++ '=' :: (c ++ (p.text.toList ++ d))) =
      c ++ (p.text.toList ++ d) := Text.after_append hfirst _
  refine ⟨⟨by simp, ?_⟩, ?_⟩
  · rw [hname]
    simp [p.name_ne]
  · have hvalue : Text.trim (.ofList (c ++ (p.text.toList ++ d))) = Text.trim p.text := by
      rw [← String.toList_inj, Text.toList_trim, Text.toList_trim, String.toList_ofList,
        Text.trimChars_between hc hd (toList_trimmed p.text_trim), toList_trimmed p.text_trim]
    rw [Input.reading, hname, htext, Text.trimChars_between ha hb (toList_trimmed p.name_trim),
      String.ofList_toList, readLiteral_congr hvalue, Parameter.member]

theorem Parameter.Writes.not_blank (h : p.Writes piece) : ¬Text.Blank piece := fun hblank =>
  notMem_of_blank hblank (by decide) h.reading.1.equals

theorem WritesEach.comma_notMem (h : WritesEach parameters found) :
    ∀ piece ∈ found, ',' ∉ piece := by
  induction h with
  | nil => simp
  | blank hblank _ ih => exact List.forall_mem_cons.mpr ⟨notMem_of_blank hblank (by decide), ih⟩
  | cons hpiece _ ih => exact List.forall_mem_cons.mpr ⟨hpiece.comma_notMem, ih⟩

/-- The pieces that are not blank are read as the parameters that they were written from. -/
theorem WritesEach.reading (h : WritesEach parameters found) :
    (∀ piece ∈ found.filter fun piece => ¬Text.Blank piece, Assigns piece) ∧
      (found.filter fun piece => ¬Text.Blank piece).map Input.reading =
        parameters.map Parameter.member := by
  induction h with
  | nil => simp
  | blank hblank _ ih => simpa [hblank] using ih
  | @cons p parameters piece others hpiece _ ih =>
    obtain ⟨hassigns, hread⟩ := hpiece.reading
    have hfilter : (piece :: others).filter (fun piece => ¬Text.Blank piece) =
        piece :: others.filter (fun piece => ¬Text.Blank piece) :=
      List.filter_cons_of_pos (by simpa using hpiece.not_blank)
    rw [hfilter, List.map_cons, List.map_cons, hread, ih.2]
    exact ⟨List.forall_mem_cons.mpr ⟨hassigns, ih.1⟩, rfl⟩

/-- Pieces that were put together with commas come apart again; those that are not blank are
left. -/
theorem filter_splitOn_intercalate (h : ∀ piece ∈ found, ',' ∉ piece) :
    (([','].intercalate found).splitOn ',').filter (fun piece => ¬Text.Blank piece) =
      found.filter fun piece => ¬Text.Blank piece := by
  cases found with
  | nil => simp [Text.blank_nil]
  | cons piece others => rw [List.splitOn_intercalate ',' h (List.cons_ne_nil _ _)]

end Pieces

section Reading

variable {type spec : String} {parameters : List Parameter}

/-- What was written is read. -/
theorem Writes.read (h : Writes type parameters spec) (hsome : type ≠ "")
    (htrim : Text.trim type = type) (hcolon : ':' ∉ type.toList) :
    ofSpec spec =
      .ok ⟨.text type, .record (.ofList (gathered (parameters.map Parameter.member)))⟩ := by
  have htype : String.ofList (Text.trimChars type.toList) = type := by
    rw [toList_trimmed htrim, String.ofList_toList]
  have hblank : ¬Text.Blank type.toList := by
    rw [← Text.trimChars_eq_nil_iff, toList_trimmed htrim]
    simpa using hsome
  rw [ofSpec_eq_ok_iff]
  cases h with
  | bare =>
    have hbefore : typePart type = type.toList := Text.before_of_not_mem hcolon
    have hnone : pieces type = [] := by
      unfold pieces
      rw [Text.after_of_not_mem hcolon]
      simp [Text.blank_nil]
    rw [hbefore, hnone, htype]
    exact ⟨hblank, by simp, rfl⟩
  | @listed _ found hpieces =>
    have hspec : (type ++ ":" ++ .ofList ([','].intercalate found)).toList =
        type.toList ++ ':' :: [','].intercalate found := by
      simp
    have hbefore : typePart (type ++ ":" ++ .ofList ([','].intercalate found)) = type.toList := by
      rw [typePart, hspec, Text.before_append hcolon]
    have hafter : pieces (type ++ ":" ++ .ofList ([','].intercalate found)) =
        found.filter fun piece => ¬Text.Blank piece := by
      rw [pieces, hspec, Text.after_append hcolon,
        filter_splitOn_intercalate hpieces.comma_notMem]
    obtain ⟨hassigns, hread⟩ := hpieces.reading
    rw [hbefore, hafter, htype, hread]
    exact ⟨hblank, hassigns, rfl⟩

/-- The parameters are read as they were meant: all of them and no others. -/
def ReadAs (params : Record Value) (parameters : List Parameter) : Prop :=
  params.entries.Perm (parameters.map Parameter.member)

theorem nodup_names (hdistinct : (parameters.map (·.name)).Nodup) :
    ((parameters.map Parameter.member).map (·.1)).Nodup := by
  simpa [Function.comp_def, Parameter.member] using hdistinct

theorem nodup_gathered (hdistinct : (parameters.map (·.name)).Nodup) :
    ((gathered (parameters.map Parameter.member)).map (·.1)).Nodup :=
  (nodup_names hdistinct).sublist (List.filter_sublist.map _)

/-- All members are gathered if and only if none stands under the name of what records fall
back on. -/
theorem readAs_iff (hdistinct : (parameters.map (·.name)).Nodup) :
    ReadAs (.ofList (gathered (parameters.map Parameter.member))) parameters ↔
      ∀ p ∈ parameters, p.name ≠ Record.baseName := by
  have hperm := Record.perm_entries_ofList (nodup_gathered hdistinct)
  constructor
  · intro h p hp
    have hgathered : p.member ∈ gathered (parameters.map Parameter.member) :=
      (hperm.symm.trans h).mem_iff.mpr (List.mem_map_of_mem hp)
    exact of_decide_eq_true (List.mem_filter.mp hgathered).2
  · intro h
    have hall : gathered (parameters.map Parameter.member) = parameters.map Parameter.member := by
      refine List.filter_eq_self.mpr fun m hm => ?_
      obtain ⟨p, hp, rfl⟩ := List.mem_map.mp hm
      exact decide_eq_true (h p hp)
    rw [ReadAs, hall]
    exact Record.perm_entries_ofList (nodup_names hdistinct)

/-- An input that was written is read with the type that it was given and with its parameters,
each with the value that its text stands for and no others. One under the name of what records
fall back on is lost, so all are read as they were meant if and only if there is none. These
texts are truth values and integers as they are printed, and all other texts that are no
decimals stand for themselves. -/
theorem specs_are_read_back (type spec : String) (parameters : List Parameter) :
    (type ≠ "" → Text.trim type = type → ':' ∉ type.toList →
      (parameters.map (·.name)).Nodup → Writes type parameters spec →
        ∃ params, ofSpec spec = .ok ⟨.text type, .record params⟩ ∧
          (ReadAs params parameters ↔ ∀ p ∈ parameters, p.name ≠ Record.baseName) ∧
          params.entries.Perm (gathered (parameters.map Parameter.member)) ∧
          ∀ name value, params.get? name = some value ↔ name ≠ Record.baseName ∧
            ∃ p ∈ parameters, p.name = name ∧ readLiteral p.text = value) ∧
    (∀ b : Bool, readLiteral (toString b) = .boolean b) ∧
    (∀ n : Int, n.natAbs < 2 ^ 53 → readLiteral (toString n) = .number (.ofInt n) ∧
      (Number.ofInt n).toInt? = some n ∧ (Number.ofInt n).toText = toString n) ∧
    ∀ text : String, Text.trim text = text → text ≠ "true" → text ≠ "false" →
      ¬IsDecimal text.toList → readLiteral text = .text text := by
  refine ⟨?_, ?_, ?_, ?_⟩
  · intro hsome htrim hcolon hdistinct hwritten
    have hget (name : String) (value : Value) :
        (Record.ofList (gathered (parameters.map Parameter.member))).get? name = some value ↔
          name ≠ Record.baseName ∧
            ∃ p ∈ parameters, p.name = name ∧ readLiteral p.text = value := by
      rw [Record.get?_ofList_eq_some_iff (nodup_gathered hdistinct), gathered, List.mem_filter,
        decide_eq_true_eq, and_comm]
      simp [Parameter.member]
    exact ⟨_, hwritten.read hsome htrim hcolon, readAs_iff hdistinct,
      Record.perm_entries_ofList (nodup_gathered hdistinct), hget⟩
  · intro b
    cases b <;> rfl
  · intro n hn
    exact ⟨readLiteral_toString n, Number.toInt?_ofInt hn.le, Number.toText_ofInt hn⟩
  · intro text htrim htrue hfalse hdecimal
    exact readLiteral_text htrim htrue hfalse hdecimal

/-- The parameter `speed` with the text `-3`. -/
def speedParameter : Parameter where
  name := "speed"
  text := "-3"
  name_ne := by decide
  name_trim := by rfl
  name_equals := by decide
  name_comma := by decide
  text_trim := by rfl
  text_comma := by decide

/-- The parameter `note` with the text `a:b=c`, which has the separators in it. -/
def noteParameter : Parameter where
  name := "note"
  text := "a:b=c"
  name_ne := by decide
  name_trim := by rfl
  name_equals := by decide
  name_comma := by decide
  text_trim := by rfl
  text_comma := by decide

/-- Two parameters with white space in all places and an empty piece between them. -/
theorem spaced_spec_is_written :
    Writes "adjust" [speedParameter, noteParameter] "adjust: speed =\t-3 ,, note=a:b=c" := by
  have hspeed : speedParameter.Writes
      [' ', 's', 'p', 'e', 'e', 'd', ' ', '=', '\t', '-', '3', ' '] :=
    @Parameter.Writes.mk speedParameter [' '] [' '] ['\t'] [' '] (by decide) (by decide)
      (by decide) (by decide)
  have hnote : noteParameter.Writes [' ', 'n', 'o', 't', 'e', '=', 'a', ':', 'b', '=', 'c'] :=
    @Parameter.Writes.mk noteParameter [' '] [] [] [] (by decide) (by decide) (by decide)
      (by decide)
  exact .listed (.cons hspeed (.blank Text.blank_nil (.cons hnote .nil)))

theorem readLiteral_note : readLiteral noteParameter.text = .text "a:b=c" := by
  refine readLiteral_text (by rfl) (by decide) (by decide) fun h => ?_
  have hletter := h.forall_mem 'a' (by decide)
  revert hletter
  decide

/-- The parameters that were meant are read, and the text with separators in it stays whole. -/
theorem specs_are_read_back_spaced :
    ∃ params, ofSpec "adjust: speed =\t-3 ,, note=a:b=c" = .ok ⟨.text "adjust", .record params⟩ ∧
      params.entries.Perm [("speed", .number (.ofInt (-3))), ("note", .text "a:b=c")] := by
  obtain ⟨hread, -, hintegers, -⟩ :=
    specs_are_read_back "adjust" "adjust: speed =\t-3 ,, note=a:b=c" [speedParameter, noteParameter]
  have htrim : Text.trim "adjust" = "adjust" := by rfl
  obtain ⟨params, hspec, hmeant, -⟩ := hread (by decide) htrim (by decide) (by decide)
    spaced_spec_is_written
  have hminus : toString (-3 : Int) = speedParameter.text := by rfl
  have hspeed := (hintegers (-3) (by decide)).1
  rw [hminus] at hspeed
  have hparams := hmeant.mpr (by decide)
  rw [ReadAs, List.map_cons, List.map_cons, List.map_nil, Parameter.member, Parameter.member,
    hspeed, readLiteral_note] at hparams
  exact ⟨params, hspec, hparams⟩

/-- The parameter `__proto__` with the text `5`. -/
def baseParameter : Parameter where
  name := "__proto__"
  text := "5"
  name_ne := by decide
  name_trim := by rfl
  name_equals := by decide
  name_comma := by decide
  text_trim := by rfl
  text_comma := by decide

/-- A parameter that is written under the name of what records fall back on is not read. -/
theorem base_parameter_is_lost :
    Writes "t" [baseParameter] "t:__proto__=5" ∧
      ofSpec "t:__proto__=5" = .ok ⟨.text "t", .record ∅⟩ ∧ ¬ReadAs ∅ [baseParameter] := by
  have hpiece : baseParameter.Writes ['_', '_', 'p', 'r', 'o', 't', 'o', '_', '_', '=', '5'] :=
    @Parameter.Writes.mk baseParameter [] [] [] [] Text.blank_nil Text.blank_nil Text.blank_nil
      Text.blank_nil
  have hwritten : Writes "t" [baseParameter] "t:__proto__=5" := .listed (.cons hpiece .nil)
  have hread := hwritten.read (by decide) (by rfl) (by decide)
  exact ⟨hwritten, hread, fun h => absurd h.length_eq (by decide)⟩

end Reading

end Harbormaster.Input
