import Harbormaster.Explanation.Template
import Harbormaster.Proofs.Text.Occurrences
import Harbormaster.Proofs.Text.Runs

/-!
Templates as they are meant. A template is written as literal text without braces and names
in double braces, in any order and number, with white space around the names as desired. The
reader of templates finds just these segments again, whatever stands next to what, and so
the values come into the places of their names, once and as they are: a value that looks like
a placeholder is text like any other.
-/

namespace Harbormaster.Template

structure Placeholder where
  before : String
  name : String
  after : String
  name_ne : name ≠ ""
  name_trim : Text.trim name = name
  name_braceless : ∀ c ∈ name.toList, isBrace c = false
  before_blank : ∀ c ∈ before.toList, Text.isBlank c = true
  after_blank : ∀ c ∈ after.toList, Text.isBlank c = true

inductive Segment where
  | literal (text : String) (braceless : ∀ c ∈ text.toList, isBrace c = false)
  | placeholder (p : Placeholder)

namespace Placeholder

def inner (p : Placeholder) : List Char := p.before.toList ++ (p.name.toList ++ p.after.toList)

def written (p : Placeholder) : List Char :=
  '\x7b' :: '\x7b' :: p.inner ++ ['\x7d', '\x7d']

end Placeholder

namespace Segment

/-- The segment as a template has it. -/
def written : Segment → List Char
  | literal text _ => text.toList
  | placeholder p => p.written

/-- The segment with its value in place of its name; where the name has none, nothing changes. -/
def filled (values : Record Value) : Segment → List Char
  | literal text _ => text.toList
  | placeholder p =>
    match values.get? p.name with
    | some value => value.templateText.toList
    | none => p.written

/-- The name of a segment that has no value. -/
def unknown? (values : Record Value) : Segment → Option String
  | literal .. => none
  | placeholder p => if values.contains p.name then none else some p.name

/-- The segment as the reader of templates finds it. -/
def pieces : Segment → List Piece
  | literal text _ => text.toList.map .literal
  | placeholder p => [.placeholder p.name p.written]

end Segment

section Reading

variable {cs inner rest : List Char} {c : Char}

theorem isBrace_of_isBlank (h : Text.isBlank c = true) : isBrace c = false := by
  cases hbrace : isBrace c with
  | false => rfl
  | true =>
    rcases Bool.or_eq_true_iff.mp hbrace with hopening | hclosing
    · rw [beq_iff_eq.mp hopening] at h
      exact absurd h (by decide)
    · rw [beq_iff_eq.mp hclosing] at h
      exact absurd h (by decide)

theorem Placeholder.inner_braceless (p : Placeholder) : ∀ c ∈ p.inner, isBrace c = false := by
  intro c hc
  simp only [inner, List.mem_append] at hc
  rcases hc with hbefore | hname | hafter
  · exact isBrace_of_isBlank (p.before_blank c hbefore)
  · exact p.name_braceless c hname
  · exact isBrace_of_isBlank (p.after_blank c hafter)

/-- The white space around a name does not belong to it. -/
theorem Placeholder.placeholderName_inner (p : Placeholder) :
    placeholderName p.inner = p.name.toList := by
  have hne : p.name.toList ≠ [] := by simpa using p.name_ne
  have htrim : Text.trimChars p.name.toList = p.name.toList := by
    rw [← String.toList_ofList (l := Text.trimChars p.name.toList)]
    exact congrArg String.toList p.name_trim
  obtain ⟨hfirst, hlast⟩ := Text.ends_of_trimmed htrim hne
  have hinner : Text.trimChars p.inner = p.name.toList :=
    Text.trimChars_append p.before_blank p.after_blank hne hfirst hlast
  unfold placeholderName
  rw [hinner]
  split
  · rename_i hnil
    exact absurd hnil hne
  · rfl

theorem placeholder?_of_not_isBrace (h : isBrace c = false) : placeholder? (c :: rest) = none := by
  unfold placeholder?
  split
  · rename_i heq
    rw [(List.cons.inj heq).1] at h
    exact absurd h (by decide)
  · rfl

/-- The closing braces of a placeholder are the first ones after its opening braces. -/
theorem placeholder?_written (hsome : inner ≠ []) (hbraceless : ∀ c ∈ inner, isBrace c = false)
    (rest : List Char) :
    placeholder? ('\x7b' :: '\x7b' :: (inner ++ '\x7d' :: '\x7d' :: rest)) =
      some (inner, rest) := by
  have hinside : ∀ c ∈ inner, (!isBrace c) = true := fun c hc => by simp [hbraceless c hc]
  have hend : ∀ c ∈ ('\x7d' :: '\x7d' :: rest).head?, (!isBrace c) = false := by
    rintro _ ⟨⟩
    rfl
  have hempty : inner.isEmpty = false := by simpa using hsome
  simp [placeholder?, Text.takeWhile_run hinside hend, Text.dropWhile_run hinside hend, hempty]

theorem pieces_cons_of_none (h : placeholder? (c :: rest) = none) :
    pieces (c :: rest) = .literal c :: pieces rest := by
  rw [pieces]
  split
  · rename_i found
    rw [h] at found
    cases found
  · rfl

theorem pieces_of_some (h : placeholder? cs = some (inner, rest)) :
    pieces cs = .placeholder (.ofList (placeholderName inner))
      ('\x7b' :: '\x7b' :: inner ++ ['\x7d', '\x7d']) :: pieces rest := by
  cases cs with
  | nil => cases h
  | cons c others =>
    rw [pieces]
    split
    · rename_i found
      rw [h] at found
      cases found
      rfl
    · rename_i found
      rw [h] at found
      cases found

/-- Literal text is read character by character, up to its end and no further. -/
theorem pieces_literal (hbraceless : ∀ c ∈ cs, isBrace c = false) (rest : List Char) :
    pieces (cs ++ rest) = cs.map .literal ++ pieces rest := by
  induction cs with
  | nil => rfl
  | cons c cs ih =>
    have hfirst : placeholder? (c :: (cs ++ rest)) = none :=
      placeholder?_of_not_isBrace (hbraceless c List.mem_cons_self)
    rw [List.cons_append, pieces_cons_of_none hfirst, List.map_cons, List.cons_append,
      ih fun other hother => hbraceless other (List.mem_cons_of_mem _ hother)]

theorem Placeholder.pieces_written (p : Placeholder) (rest : List Char) :
    pieces (p.written ++ rest) = .placeholder p.name p.written :: pieces rest := by
  have hsome : p.inner ≠ [] := by simp [inner, p.name_ne]
  have hfound := placeholder?_written hsome p.inner_braceless rest
  have hwritten : p.written ++ rest =
      '\x7b' :: '\x7b' :: (p.inner ++ '\x7d' :: '\x7d' :: rest) := by simp [written]
  rw [hwritten, pieces_of_some hfound, p.placeholderName_inner, String.ofList_toList]
  rfl

theorem Segment.pieces_written (s : Segment) (rest : List Char) :
    Template.pieces (s.written ++ rest) = s.pieces ++ Template.pieces rest := by
  cases s with
  | literal text hbraceless => exact pieces_literal hbraceless rest
  | placeholder p => exact p.pieces_written rest

/-- A template is read as the segments that it was written from. -/
theorem pieces_segments (segments : List Segment) :
    pieces (segments.flatMap Segment.written) = segments.flatMap Segment.pieces := by
  induction segments with
  | nil => rw [List.flatMap_nil, pieces, List.flatMap_nil]
  | cons s rest ih => rw [List.flatMap_cons, s.pieces_written, ih, List.flatMap_cons]

end Reading

section Filling

variable (values : Record Value)

theorem Segment.expand_pieces (s : Segment) :
    s.pieces.flatMap (·.expand values) = s.filled values := by
  cases s with
  | literal text => simp [pieces, filled, Piece.expand, List.flatMap_map]
  | placeholder p =>
    cases hvalue : values.get? p.name with
    | none | some => simp [pieces, filled, Piece.expand, hvalue]

theorem Segment.unresolved_pieces (s : Segment) :
    s.pieces.filterMap (·.unresolved? values) = (s.unknown? values).toList := by
  cases s with
  | literal text => simp [pieces, unknown?, Piece.unresolved?, List.filterMap_map]
  | placeholder p =>
    by_cases hknown : values.contains p.name = true
    · simp [pieces, unknown?, Piece.unresolved?, hknown]
    · simp [pieces, unknown?, Piece.unresolved?, hknown]

end Filling

/-- A template of any segments is expanded segment by segment: literal text stays, a name
that has a value gives way to its text, which is not looked at again, and a name that has
none stays as it is written. Each of the latter is told once, in the order in which they
first appear. -/
theorem expand_fills_segments (segments : List Segment) (values : Record Value) :
    (expand (.ofList (segments.flatMap Segment.written)) values).message =
        .ofList (segments.flatMap (·.filled values)) ∧
      (expand (.ofList (segments.flatMap Segment.written)) values).unresolved =
        (segments.filterMap (·.unknown? values)).eraseDups ∧
      (expand (.ofList (segments.flatMap Segment.written)) values).unresolved.Nodup := by
  have hpieces : pieces (String.ofList (segments.flatMap Segment.written)).toList =
      segments.flatMap Segment.pieces := by
    rw [String.toList_ofList, pieces_segments]
  have hmessage : (segments.flatMap Segment.pieces).flatMap (·.expand values) =
      segments.flatMap (·.filled values) := by
    rw [List.flatMap_assoc]
    exact congrArg (segments.flatMap ·) (funext fun s => s.expand_pieces values)
  have hunknown : (segments.flatMap Segment.pieces).filterMap (·.unresolved? values) =
      segments.filterMap (·.unknown? values) := by
    rw [List.filterMap_flatMap, List.filterMap_eq_flatMap_toList]
    exact congrArg (segments.flatMap ·) (funext fun s => s.unresolved_pieces values)
  unfold expand
  dsimp only
  rw [hpieces, hmessage, hunknown, firstOccurrences, Text.foldl_eq_eraseDups]
  exact ⟨rfl, rfl, Text.nodup_eraseDups _⟩

def passage : String :=
  "\x7b\x7b tide\x7d\x7d: \x7b\x7bzone\x7d\x7d\x7b\x7bspeed \x7d\x7d, \x7b\x7b tide\x7d\x7d"

/-- The value of `zone` looks like a placeholder of a name that has a value too. -/
def passageValues : Record Value :=
  .ofList [("zone", "\x7b\x7bspeed\x7d\x7d"), ("speed", 4)]

/-- The name `tide` has no value and is asked for twice. -/
theorem passage_fills_segments :
    (expand passage passageValues).message =
        "\x7b\x7b tide\x7d\x7d: \x7b\x7bspeed\x7d\x7d4, \x7b\x7b tide\x7d\x7d" ∧
      (expand passage passageValues).unresolved = ["tide"] := by
  let tide : Segment := .placeholder
    ⟨" ", "tide", "", by decide, by decide, by simp [isBrace], by simp [Text.isBlank], by simp⟩
  let zone : Segment := .placeholder
    ⟨"", "zone", "", by decide, by decide, by simp [isBrace], by simp, by simp⟩
  let speed : Segment := .placeholder
    ⟨"", "speed", " ", by decide, by decide, by simp [isBrace], by simp, by simp [Text.isBlank]⟩
  let colon : Segment := .literal ": " (by simp [isBrace])
  let comma : Segment := .literal ", " (by simp [isBrace])
  obtain ⟨hmessage, hunresolved, -⟩ := expand_fills_segments
    [tide, colon, zone, speed, comma, tide] passageValues
  exact ⟨hmessage.trans (by decide +kernel), hunresolved.trans (by decide +kernel)⟩

end Harbormaster.Template
