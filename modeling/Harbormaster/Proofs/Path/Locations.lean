import Harbormaster.Proofs.Path.Rendering

/-!
Which texts are paths, and of which locations. A text is a path exactly when it names a
container and then as many words below it as that container has; the words and the container
are all that a path is made of. So between the texts that are paths and the locations that
they name there is a correspondence one to one, with parsing as one direction and rendering as
the other.
-/

namespace Harbormaster.Path

structure Word (name : String) : Prop where
  nonempty : name ≠ ""
  chars : ∀ c ∈ name.toList, ('a' ≤ c ∧ c ≤ 'z') ∨ ('A' ≤ c ∧ c ≤ 'Z') ∨ ('0' ≤ c ∧ c ≤ '9') ∨
    c = '_' ∨ c = '-'

/-- The texts that are paths, each with the location that it names. -/
inductive Spells : String → Path → Prop where
  | agentField {agent field : String} (hagent : Word agent) (hfield : Word field) :
      Spells ("agents." ++ agent ++ "." ++ field) (.agentField agent field)
  | environmentField {field : String} (hfield : Word field) :
      Spells ("environment." ++ field) (.environmentField field)
  | metric {name : String} (hname : Word name) : Spells ("global_metrics." ++ name) (.metric name)
  | event {eventType : String} (htype : Word eventType) :
      Spells ("events." ++ eventType) (.event eventType none)
  | eventMember {eventType key : String} (htype : Word eventType) (hkey : Word key) :
      Spells ("events." ++ eventType ++ "." ++ key) (.event eventType (some key))

/-- Whether a path is made of words throughout, so that there is a text for it. -/
def Worded : Path → Prop
  | agentField agent field => Word agent ∧ Word field
  | environmentField field => Word field
  | metric name => Word name
  | event eventType none => Word eventType
  | event eventType (some key) => Word eventType ∧ Word key

/-- Whether two texts are paths of one location. -/
def SameLocation (text other : String) : Prop :=
  ∃ path, parse? text = some path ∧ parse? other = some path

variable {text other name : String} {path : Path}

theorem isWordChar_iff {c : Char} : isWordChar c = true ↔
    ('a' ≤ c ∧ c ≤ 'z') ∨ ('A' ≤ c ∧ c ≤ 'Z') ∨ ('0' ≤ c ∧ c ≤ '9') ∨ c = '_' ∨ c = '-' := by
  have hupper : c.isUpper = decide ('A' ≤ c ∧ c ≤ 'Z') := rfl
  have hlower : c.isLower = (decide ('a' ≤ c) && decide (c ≤ 'z')) := rfl
  have hdigit : c.isDigit = (decide ('0' ≤ c) && decide (c ≤ '9')) := rfl
  have hletter : c.isAlphanum = (c.isUpper || c.isLower || c.isDigit) := rfl
  simp only [isWordChar, hletter, hupper, hlower, hdigit, Bool.or_eq_true, Bool.and_eq_true,
    decide_eq_true_eq, beq_iff_eq]
  tauto

theorem isWord_iff : isWord name.toList = true ↔ Word name := by
  have hchars : name.toList.all isWordChar = true ↔ ∀ c ∈ name.toList, ('a' ≤ c ∧ c ≤ 'z') ∨
      ('A' ≤ c ∧ c ≤ 'Z') ∨ ('0' ≤ c ∧ c ≤ '9') ∨ c = '_' ∨ c = '-' := by
    simp only [List.all_eq_true, isWordChar_iff]
  unfold isWord
  rw [Bool.and_eq_true, hchars]
  constructor
  · rintro ⟨hsome, hall⟩
    refine ⟨?_, hall⟩
    rintro rfl
    cases hsome
  · intro hword
    refine ⟨?_, hword.chars⟩
    simpa using hword.nonempty

theorem ofWords?_words (path : Path) : ofWords? path.words = some path := by
  cases path with
  | event eventType key => cases key <;> rfl
  | agentField | environmentField | metric => rfl

theorem words_ne_nil (path : Path) : path.words ≠ [] := by
  cases path with
  | event eventType key => cases key <;> exact List.cons_ne_nil _ _
  | agentField | environmentField | metric => exact List.cons_ne_nil _ _

/-- The names of the containers are words themselves. -/
theorem worded_iff : path.Worded ↔ ∀ word ∈ path.words, isWord word.toList = true := by
  have hagents : Word "agents" := isWord_iff.mp (by decide)
  have henvironment : Word "environment" := isWord_iff.mp (by decide)
  have hmetrics : Word "global_metrics" := isWord_iff.mp (by decide)
  have hevents : Word "events" := isWord_iff.mp (by decide)
  cases path with
  | event eventType key => cases key <;> simp [Worded, words, isWord_iff, hevents]
  | agentField => simp [Worded, words, isWord_iff, hagents]
  | environmentField => simp [Worded, words, isWord_iff, henvironment]
  | metric => simp [Worded, words, isWord_iff, hmetrics]

/-- Words with dots between them are cut into the same words again. -/
theorem parse?_intercalate_words {words : List String} (hsome : words ≠ [])
    (hwords : ∀ word ∈ words, isWord word.toList = true) :
    parse? (".".intercalate words) = ofWords? words := by
  have hcut : Text.splitChars '.' (".".intercalate words).toList = words.map String.toList := by
    rw [Text.splitChars_eq_splitOn, String.toList_intercalate]
    refine List.splitOn_intercalate '.' ?_ ?_
    · simp only [List.forall_mem_map]
      exact fun word hword => not_mem_of_isWord (hwords word hword)
    · simpa using hsome
  have hall : (words.map String.toList).all isWord = true := by
    simpa [List.all_eq_true] using hwords
  unfold parse?
  dsimp only
  rw [hcut, if_pos hall, List.map_map]
  simp [Function.comp_def]

theorem parse?_render (h : path.Worded) : parse? path.render = some path := by
  unfold render
  rw [parse?_intercalate_words path.words_ne_nil (worded_iff.mp h), ofWords?_words]

theorem worded_of_parse? (h : parse? text = some path) : path.Worded := by
  rw [worded_iff]
  unfold parse? at h
  dsimp only at h
  split at h
  · rename_i hall
    rw [words_of_ofWords? h]
    simpa [List.all_eq_true] using hall
  · cases h

/-- The text of a path is its container and the words below it, each of them behind a dot. -/
theorem render_eq (path : Path) : path.render =
    match path with
    | agentField agent field => "agents." ++ agent ++ "." ++ field
    | environmentField field => "environment." ++ field
    | metric name => "global_metrics." ++ name
    | event eventType none => "events." ++ eventType
    | event eventType (some key) => "events." ++ eventType ++ "." ++ key := by
  rw [← String.toList_inj]
  cases path with
  | event eventType key => cases key <;> simp [render, words]
  | agentField | environmentField | metric => simp [render, words]

theorem spells_iff : Spells text path ↔ path.Worded ∧ path.render = text := by
  constructor
  · intro hspells
    cases hspells with
    | agentField hagent hfield => exact ⟨⟨hagent, hfield⟩, render_eq _⟩
    | environmentField hfield => exact ⟨hfield, render_eq _⟩
    | metric hname => exact ⟨hname, render_eq _⟩
    | event htype => exact ⟨htype, render_eq _⟩
    | eventMember htype hkey => exact ⟨⟨htype, hkey⟩, render_eq _⟩
  · rintro ⟨hworded, rfl⟩
    rw [render_eq]
    cases path with
    | agentField => exact .agentField hworded.1 hworded.2
    | environmentField => exact .environmentField hworded
    | metric => exact .metric hworded
    | event eventType key =>
      cases key with
      | none => exact .event hworded
      | some key => exact .eventMember hworded.1 hworded.2

/-- A text is read as the path that it spells, and as nothing if it spells none. -/
theorem parse?_eq_some_iff : parse? text = some path ↔ Spells text path := by
  rw [spells_iff]
  constructor
  · intro hparse
    exact ⟨worded_of_parse? hparse, render_of_parse? hparse⟩
  · rintro ⟨hworded, rfl⟩
    exact parse?_render hworded

/-- Two texts of one location are one text. -/
theorem SameLocation.eq (h : SameLocation text other) : text = other := by
  obtain ⟨path, htext, hother⟩ := h
  exact eq_of_parse? htext hother

end Harbormaster.Path
