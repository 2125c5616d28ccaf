import Harbormaster.Proofs.Input.Literals
import Harbormaster.Proofs.Record.Members
import Harbormaster.Proofs.Text.Pieces

/-!
The spelling of inputs. A text spells an input if something stands before its first colon and
if each of its pieces behind the colon, blank ones aside, has an equals sign with something in
front of it. What stands there may be white space, though, and white space is trimmed away
when the parameter gets its name: so a text is read that has a parameter without a name.
-/

namespace Harbormaster.Input

variable {spec : String} {piece : List Char} {input : Input}

/-- The characters in which the type of an input is written. -/
def typePart (spec : String) : List Char := Text.before ':' spec.toList

/-- The pieces in which the parameters of an input are written, one in each. -/
def pieces (spec : String) : List (List Char) :=
  ((Text.after ':' spec.toList).splitOn ',').filter fun piece => ¬Text.Blank piece

/-- The characters in which a parameter is named. -/
def namePart (piece : List Char) : List Char := Text.before '=' piece

def reading (piece : List Char) : String × Value :=
  (.ofList (Text.trimChars (namePart piece)), readLiteral (.ofList (Text.after '=' piece)))

section Reading

structure Assigns (piece : List Char) : Prop where
  equals : '=' ∈ piece
  something : namePart piece ≠ []

theorem readPair_eq_ok_iff {params out : Record Value} :
    readPair spec params (.ofList piece) = .ok out ↔
      Assigns piece ∧ out = params.assign (reading piece).1 (reading piece).2 := by
  have hname : Text.trim (.ofList (Text.before '=' piece)) = (reading piece).1 := by
    simp only [reading, namePart, Text.trim, String.toList_ofList]
  have hvalue : readLiteral (.ofList (Text.after '=' piece)) = (reading piece).2 := by
    simp only [reading]
  unfold readPair
  rw [Text.cut?_eq, String.toList_ofList]
  by_cases hequals : '=' ∈ piece
  · simp only [hequals, if_true, hname, hvalue]
    by_cases hnone : namePart piece = []
    · have hempty : (String.ofList (Text.before '=' piece)).isEmpty = true := by
        simpa [namePart] using hnone
      simp only [hempty, if_true, reduceCtorEq, false_iff]
      exact fun h => h.1.something hnone
    · have hsome : (String.ofList (Text.before '=' piece)).isEmpty = false := by
        simpa [namePart] using hnone
      have hassigns : Assigns piece := ⟨hequals, hnone⟩
      simp only [hsome, Bool.false_eq_true, if_false, Except.ok.injEq, hassigns, true_and]
      exact eq_comm
  · simp only [hequals, if_false, reduceCtorEq, false_iff]
    exact fun h => hequals h.1.equals

theorem readPairs_eq_ok_iff {params out : Record Value} {pieces : List (List Char)} :
    readPairs spec params (pieces.map .ofList) = .ok out ↔
      (∀ piece ∈ pieces, Assigns piece) ∧
        out = (pieces.map reading).foldl (fun r m => r.assign m.1 m.2) params := by
  induction pieces generalizing params with
  | nil => simp [readPairs, eq_comm]
  | cons piece pieces ih =>
    rw [List.map_cons, readPairs, List.forall_mem_cons, List.map_cons, List.foldl_cons]
    cases hpair : readPair spec params (.ofList piece) with
    | ok next =>
      obtain ⟨hassigns, rfl⟩ := readPair_eq_ok_iff.mp hpair
      simp only [ih, hassigns, true_and]
    | error failure =>
      have hnot : ¬Assigns piece := fun hassigns => by
        have hread : readPair spec params (.ofList piece) = .ok _ :=
          readPair_eq_ok_iff.mpr ⟨hassigns, rfl⟩
        rw [hpair] at hread
        cases hread
      simp only [reduceCtorEq, hnot, false_and]

/-- What a text stands for cannot be fallen back on. -/
theorem isObject_readLiteral (s : String) :
    ((readLiteral s).isObject || (readLiteral s).isAbsent) = false := by
  unfold readLiteral
  grind [Value.isObject, Value.isAbsent]

/-- The members that a record is made of, among those that are written to it. -/
def gathered (members : List (String × Value)) : List (String × Value) :=
  members.filter fun m => m.1 ≠ Record.baseName

/-- Written one after the other, literals leave the members that were gathered. -/
theorem foldl_assign_readings {params : Record Value} (hbase : params.get? Record.baseName = none)
    (pieces : List (List Char)) :
    (pieces.map reading).foldl (fun r m => r.assign m.1 m.2) params =
      (gathered (pieces.map reading)).foldl (fun r m => r.set m.1 m.2) params := by
  induction pieces generalizing params with
  | nil => rfl
  | cons piece pieces ih =>
    rw [List.map_cons, List.foldl_cons]
    by_cases hname : (reading piece).1 = Record.baseName
    · have hgathered : gathered (reading piece :: pieces.map reading) =
          gathered (pieces.map reading) := List.filter_cons_of_neg (by simpa using hname)
      have hsame : params.assign (reading piece).1 (reading piece).2 = params := by
        rw [hname, Record.assign, Record.leads, hbase]
        simp [reading, isObject_readLiteral]
      rw [hgathered, hsame, ih hbase]
    · have hgathered : gathered (reading piece :: pieces.map reading) =
          reading piece :: gathered (pieces.map reading) :=
        List.filter_cons_of_pos (by simpa using hname)
      rw [hgathered, Record.assign_of_ne hname, List.foldl_cons, ih]
      rw [Record.get?_set, if_neg (Ne.symm hname), hbase]

/-- The pieces are those that the reader looks at. -/
theorem map_pieces (spec : String) :
    (Text.split ',' (.ofList (Text.after ':' spec.toList))).filter (!Text.isAllBlank ·) =
      (pieces spec).map .ofList := by
  unfold Text.split pieces
  rw [String.toList_ofList, Text.splitChars_eq_splitOn, List.filter_map]
  congr 1
  refine List.filter_congr fun piece _ => ?_
  have hblank : Text.isAllBlank (.ofList piece) = decide (Text.Blank piece) := by
    rw [Bool.eq_iff_iff, Text.isAllBlank_iff, String.toList_ofList, decide_eq_true_iff]
  rw [Function.comp_apply, hblank, decide_not]

/-- An input is read if its type is written and every piece assigns something. -/
theorem ofSpec_eq_ok_iff : ofSpec spec = .ok input ↔
    ¬Text.Blank (typePart spec) ∧ (∀ piece ∈ pieces spec, Assigns piece) ∧
      input = ⟨.text (.ofList (Text.trimChars (typePart spec))),
        .record (.ofList (gathered ((pieces spec).map reading)))⟩ := by
  have hcut : (Text.cut? ':' spec).getD (spec, "") =
      (.ofList (typePart spec), .ofList (Text.after ':' spec.toList)) := by
    rw [Text.cut?_eq]
    by_cases hcolon : ':' ∈ spec.toList
    · rw [if_pos hcolon]
      rfl
    · rw [if_neg hcolon, typePart, Text.before_of_not_mem hcolon, Text.after_of_not_mem hcolon]
      simp
  have htype : Text.trim (.ofList (typePart spec)) = .ofList (Text.trimChars (typePart spec)) := by
    rw [Text.trim, String.toList_ofList]
  unfold ofSpec
  simp only [hcut, htype, map_pieces]
  by_cases hblank : Text.Blank (typePart spec)
  · have hempty : (String.ofList (Text.trimChars (typePart spec))).isEmpty = true := by
      simpa using Text.trimChars_of_blank hblank
    simp [hempty, hblank]
  · have hsome : (String.ofList (Text.trimChars (typePart spec))).isEmpty = false := by
      simpa [Text.trimChars_eq_nil_iff] using hblank
    simp only [hsome, Bool.false_eq_true, if_false, hblank, not_false_iff, true_and]
    cases hpairs : readPairs spec ∅ ((pieces spec).map .ofList) with
    | ok params =>
      obtain ⟨hassigns, rfl⟩ := readPairs_eq_ok_iff.mp hpairs
      rw [foldl_assign_readings rfl]
      simp only [Except.map, Except.ok.injEq]
      exact ⟨fun h => ⟨hassigns, h.symm⟩, fun h => h.2.symm⟩
    | error failure =>
      simp only [Except.map, reduceCtorEq, false_iff, not_and]
      intro hassigns
      have hread : readPairs spec ∅ ((pieces spec).map .ofList) = .ok _ :=
        readPairs_eq_ok_iff.mpr ⟨hassigns, rfl⟩
      rw [hpairs] at hread
      cases hread

end Reading

section Names

/-- Texts that spell inputs as they should: neither the type nor the name of a parameter is
blank, and every parameter has a name. -/
structure WellSpelled (spec : String) : Prop where
  typed : ¬Text.Blank (typePart spec)
  named : ∀ piece ∈ pieces spec, '=' ∈ piece ∧ ¬Text.Blank (namePart piece)

def WellNamed (input : Input) : Prop :=
  ∃ type params, input = ⟨.text type, .record params⟩ ∧ (type ≠ "" ∧ Text.trim type = type) ∧
    ∀ name ∈ params.keys, name ≠ "" ∧ Text.trim name = name

/-- A text is read if it is well spelled and refused if it is not, and what is read has names. -/
def ReadIfSpelled (spec : String) : Prop :=
  ((∃ input, ofSpec spec = .ok input) ↔ WellSpelled spec) ∧
    ∀ input, ofSpec spec = .ok input → WellNamed input

theorem trim_ofList_trimChars (cs : List Char) :
    Text.trim (.ofList (Text.trimChars cs)) = .ofList (Text.trimChars cs) := by
  rw [Text.trim, String.toList_ofList, Text.trimChars_trimChars]

theorem ofList_trimChars_ne {cs : List Char} (h : ¬Text.Blank cs) :
    String.ofList (Text.trimChars cs) ≠ "" := by
  simpa [Text.trimChars_eq_nil_iff] using h

/-- The parameters are named by the pieces. -/
theorem exists_piece_of_mem_keys {name : String} {found : List (List Char)}
    (h : name ∈ (Record.ofList (gathered (found.map reading))).keys) :
    ∃ piece ∈ found, name = .ofList (Text.trimChars (namePart piece)) := by
  rw [Record.mem_keys_iff_contains] at h
  obtain ⟨value, hvalue⟩ := Option.isSome_iff_exists.mp h
  have hmember : (name, value) ∈ found.map reading :=
    (List.mem_filter.mp (Record.mem_of_get?_ofList hvalue)).1
  obtain ⟨piece, hpiece, hreading⟩ := List.mem_map.mp hmember
  exact ⟨piece, hpiece, (congrArg Prod.fst hreading).symm⟩

theorem WellSpelled.reads (h : WellSpelled spec) : ∃ input, ofSpec spec = .ok input := by
  refine ⟨_, ofSpec_eq_ok_iff.mpr ⟨h.typed, fun piece hpiece => ?_, rfl⟩⟩
  obtain ⟨hequals, hname⟩ := h.named piece hpiece
  exact ⟨hequals, fun hnil => hname (hnil ▸ Text.blank_nil)⟩

/-- What has been read is named throughout, if nothing in it has a blank name. -/
theorem wellNamed_of_reads (hread : ofSpec spec = .ok input)
    (hnamed : ∀ piece ∈ pieces spec, ¬Text.Blank (namePart piece)) : WellNamed input := by
  obtain ⟨htyped, -, rfl⟩ := ofSpec_eq_ok_iff.mp hread
  refine ⟨_, _, rfl, ⟨ofList_trimChars_ne htyped, trim_ofList_trimChars _⟩, fun name hname => ?_⟩
  obtain ⟨piece, hpiece, rfl⟩ := exists_piece_of_mem_keys hname
  exact ⟨ofList_trimChars_ne (hnamed piece hpiece), trim_ofList_trimChars _⟩

/-- A text is read if its type is not blank and there is something before the first equals sign
of each piece; the names that it gives are trimmed then. They are not empty, and all badly
spelled texts are refused, as long as what stands before those equals signs is not blank. -/
theorem badly_spelled_is_refused_iff (spec : String) :
    ((∃ input, ofSpec spec = .ok input) ↔
      ¬Text.Blank (typePart spec) ∧ ∀ piece ∈ pieces spec, Assigns piece) ∧
    (∀ input, ofSpec spec = .ok input → ∃ type params, input = ⟨.text type, .record params⟩ ∧
      (type ≠ "" ∧ Text.trim type = type) ∧ ∀ name ∈ params.keys, Text.trim name = name) ∧
    (ReadIfSpelled spec ↔ ((∃ input, ofSpec spec = .ok input) →
      ∀ piece ∈ pieces spec, ¬Text.Blank (namePart piece))) := by
  refine ⟨?_, ?_, ?_⟩
  · constructor
    · rintro ⟨input, hread⟩
      obtain ⟨htyped, hassigns, -⟩ := ofSpec_eq_ok_iff.mp hread
      exact ⟨htyped, hassigns⟩
    · rintro ⟨htyped, hassigns⟩
      exact ⟨_, ofSpec_eq_ok_iff.mpr ⟨htyped, hassigns, rfl⟩⟩
  · intro input hread
    obtain ⟨htyped, -, rfl⟩ := ofSpec_eq_ok_iff.mp hread
    refine ⟨_, _, rfl, ⟨ofList_trimChars_ne htyped, trim_ofList_trimChars _⟩, fun name hname => ?_⟩
    obtain ⟨piece, -, rfl⟩ := exists_piece_of_mem_keys hname
    exact trim_ofList_trimChars _
  · constructor
    · rintro ⟨hspelled, -⟩ hread piece hpiece
      exact ((hspelled.mp hread).named piece hpiece).2
    · intro hnamed
      refine ⟨⟨?_, WellSpelled.reads⟩, ?_⟩
      · rintro ⟨input, hread⟩
        obtain ⟨htyped, hassigns, -⟩ := ofSpec_eq_ok_iff.mp hread
        exact ⟨htyped, fun piece hpiece =>
          ⟨(hassigns piece hpiece).equals, hnamed ⟨input, hread⟩ piece hpiece⟩⟩
      · exact fun input hread => wellNamed_of_reads hread (hnamed ⟨input, hread⟩)

/-- A parameter whose name is a blank is taken, and has no name. -/
theorem nameless_is_read :
    ofSpec "adjust_speed: =3" = .ok ⟨"adjust_speed", .record (.ofList [("", 3)])⟩ ∧
      ¬ReadIfSpelled "adjust_speed: =3" := by
  have hpieces : pieces "adjust_speed: =3" = [[' ', '=', '3']] := by decide +kernel
  have hassigns : Assigns [' ', '=', '3'] := ⟨by decide, by decide⟩
  have hreading : reading [' ', '=', '3'] = ("", 3) := by
    have hvalue : String.ofList (Text.after '=' [' ', '=', '3']) = toString (3 : Int) := by decide
    have hname : String.ofList (Text.trimChars (namePart [' ', '=', '3'])) = "" := by decide
    have hthree : Number.ofInt 3 = 3 := by decide +kernel
    rw [reading, hvalue, hname, readLiteral_toString, hthree]
    rfl
  have hread : ofSpec "adjust_speed: =3" =
      .ok ⟨"adjust_speed", .record (.ofList [("", 3)])⟩ := by
    refine ofSpec_eq_ok_iff.mpr ⟨by decide +kernel, ?_, ?_⟩
    · rw [hpieces]
      simpa using hassigns
    · rw [hpieces, List.map_singleton, hreading]
      rfl
  refine ⟨hread, fun h => ?_⟩
  obtain ⟨_, params, hinput, -, hnames⟩ := h.2 _ hread
  cases hinput
  exact (hnames "" (by decide)).1 rfl

end Names

end Harbormaster.Input
