import Harbormaster.Expression.Operand
import Harbormaster.Proofs.Expression.Printing
import Harbormaster.Proofs.Path.Rendering
import Harbormaster.Proofs.Path.Spelling
import Harbormaster.Proofs.Text.Runs
import Harbormaster.Proofs.World.Cells

/-!
Paths in braces. A path stands for the number in its cell, and it does so between double
braces too, as long as it has no hyphens: there a hyphen ends the path and means a
subtraction. With a hyphen the two readings differ in the world where the cell of the path
is all there is, because the expression begins with another path.
-/

namespace Harbormaster

def Record.single {α : Type} (name : String) (value : α) : Record α := (∅ : Record α).set name value

theorem Record.get?_single {α : Type} (name other : String) (value : α) :
    (Record.single name value).get? other = if other = name then some value else none :=
  Record.get?_set ∅ name value other

theorem Value.native_of_shared? {name : String} {v : Value} (h : shared? name = some v) :
    ∃ thing, v = native thing := by
  unfold shared? at h
  split at h
  · exact ⟨_, (Option.some.inj h).symm⟩
  · split at h
    · exact ⟨_, (Option.some.inj h).symm⟩
    · cases h

/-- A record with one member gives that member or what all records have in common. -/
theorem Value.property?_single (name other : String) (v : Value) :
    (record (.single name v)).property? other = if other = name then some v else shared? other := by
  change ((Record.single name v).get? other).or (shared? other) = _
  rw [Record.get?_single]
  split <;> rfl

theorem Record.find?_single_self (name : String) (n : Number) :
    (Record.single name (Value.number n)).find? name = some (.number n) := by
  unfold find?
  rw [get?_single, if_pos rfl]
  split <;> rfl

theorem Record.eq_of_find?_single {name other : String} {n m : Number}
    (h : (Record.single name (Value.number n)).find? other = some (.number m)) : other = name := by
  by_contra hother
  have hroot : (Record.single name (Value.number n)).base = .native .root :=
    base_eq_root fun v hv => by
      rw [get?_single] at hv
      split at hv
      · cases hv
        rfl
      · cases hv
  unfold find? at h
  rw [get?_single, if_neg hother, hroot] at h
  split at h
  · cases h
  · obtain ⟨thing, hthing⟩ := Value.native_of_shared? h
    cases hthing

def Event.holding (n : Number) (key : String) : Event :=
  if fieldNames.contains key then ⟨.single key (.number n)⟩
  else ⟨.single "payload" (.record (.single key (.number n)))⟩

theorem Event.read_holding (n : Number) (key : String) :
    (holding n key).read key = .ok (.number n) := by
  unfold holding read Value.readEvent
  by_cases hkey : fieldNames.contains key = true
  · simp only [if_pos hkey, Value.property?_single, if_true, Option.getD_some]
  · simp only [if_neg hkey, Value.property?_single, if_true, Option.getD_some, Value.isObject,
      Value.ofOption]

section ReadEvent

variable {v : Value} {n m : Number} {key other : String}

/-- What has no number under the names of an event and no payload reads as none. -/
theorem Value.readEvent_ne_number
    (hfields : ∀ name ∈ Event.fieldNames, v.property? name ≠ some (number m))
    (hpayload : ∀ payload, v.property? "payload" = some payload → payload.isObject = false) :
    v.readEvent other ≠ .ok (number m) := by
  intro h
  unfold readEvent at h
  split at h
  · rename_i hother
    cases hfound : v.property? other with
    | none => simp [hfound] at h
    | some found =>
      rw [hfound] at h
      cases h
      exact hfields other (List.contains_iff_mem.mp hother) hfound
  · cases hfound : v.property? "payload" with
    | none => simp [hfound, isObject] at h
    | some payload => simp [hfound, hpayload payload hfound] at h

theorem Value.readEvent_native_ne_number (thing : Native) :
    (native thing).readEvent other ≠ .ok (number m) := by
  refine readEvent_ne_number ?_ nofun
  intro name _ hfound
  obtain ⟨thing, hthing⟩ := native_of_shared? hfound
  cases hthing

theorem Value.readEvent_number_ne_number : (number n).readEvent other ≠ .ok (number m) := by
  refine readEvent_ne_number ?_ nofun
  intro name _ hfound
  obtain ⟨thing, hthing⟩ := native_of_shared? hfound
  cases hthing

/-- A payload is no event. -/
theorem Value.readEvent_payload_ne_number (hkey : Event.fieldNames.contains key = false) :
    (record (.single key (number n))).readEvent other ≠ .ok (number m) := by
  refine readEvent_ne_number ?_ ?_
  · intro name hname hfound
    rw [property?_single, if_neg (by rintro rfl; simp [hname] at hkey)] at hfound
    obtain ⟨thing, hthing⟩ := native_of_shared? hfound
    cases hthing
  · intro payload hpayload
    rw [property?_single] at hpayload
    split at hpayload
    · cases hpayload
      rfl
    · cases hpayload

theorem Event.eq_of_read_holding (h : (holding n key).read other = .ok (.number m)) :
    other = key := by
  by_contra hother
  revert h
  unfold holding read
  by_cases hkey : fieldNames.contains key = true
  · have hpayload : "payload" ≠ key := by
      rintro rfl
      exact absurd hkey (by decide)
    rw [if_pos hkey]
    intro h
    unfold Value.readEvent at h
    simp only [Value.property?_single, if_neg hother, if_neg hpayload] at h
    split at h
    · cases hshared : Value.shared? other with
      | none => simp [hshared] at h
      | some v =>
        obtain ⟨thing, rfl⟩ := Value.native_of_shared? hshared
        simp [hshared] at h
    · cases h
  · rw [if_neg hkey]
    intro h
    unfold Value.readEvent at h
    simp only [Value.property?_single] at h
    have hnone : ∀ {w : Value}, Value.shared? other = some w → w ≠ .number m := by
      rintro w hw rfl
      obtain ⟨thing, hthing⟩ := Value.native_of_shared? hw
      cases hthing
    split at h
    · rename_i hfield
      have hpayload : other ≠ "payload" := by
        rintro rfl
        exact absurd hfield (by decide)
      rw [if_neg hpayload] at h
      cases hshared : Value.shared? other with
      | none => simp [hshared] at h
      | some w => simp [hshared, hnone hshared] at h
    · simp only [if_true, Option.getD_some, Value.isObject, Value.property?_single,
        if_neg hother, Except.ok.injEq] at h
      cases hshared : Value.shared? other with
      | none => simp [hshared, Value.ofOption] at h
      | some w => simp [hshared, Value.ofOption, hnone hshared] at h

end ReadEvent

namespace World

def holding (n : Number) : Path → World
  | .agentField agent field =>
    { (default : World) with
      agents := .single agent ⟨.text agent, .single field (.number n), ∅⟩ }
  | .environmentField field => { (default : World) with environment := .single field (.number n) }
  | .metric name => { (default : World) with metrics := .single name (.number n) }
  | .event _ none => default
  | .event eventType (some key) =>
    { (default : World) with events := .single eventType (.holding n key) }

variable {n m : Number} {path other : Path}

theorem event?_holding {eventType key : String} :
    (holding n (.event eventType (some key))).event? eventType =
      some (.record (Event.holding n key).members) := by
  simp [holding, event?, Record.get?_single, Value.counts]

/-- A path that is a number in some world is the number that is put in its cell. -/
theorem readAt_holding {w : World} (hnumeric : w.readAt path = .ok (.number m)) (n : Number) :
    (holding n path).readAt path = .ok (.number n) := by
  match path with
  | .agentField agent field =>
    simp [holding, readAt, Record.get?_single, Record.find?_single_self]
  | .environmentField field => simp [holding, readAt, Record.find?_single_self]
  | .metric name => simp [holding, readAt, Record.find?_single_self]
  | .event eventType none =>
    -- an event by itself is there or not, but is no number
    simp only [readAt] at hnumeric
    cases hevent : w.event? eventType with
    | none | some =>
      rw [hevent] at hnumeric
      cases hnumeric
  | .event eventType (some key) =>
    simp only [readAt, event?_holding]
    exact Event.read_holding n key

section Readings

variable {w : World} {v : Value}

theorem exists_agent_of_readAt {agent field : String}
    (h : w.readAt (.agentField agent field) = .ok v) :
    ∃ a, w.agents.get? agent = some a ∧ a.fields.find? field = some v := by
  simp only [readAt] at h
  split at h
  · cases h
  · rename_i a ha
    split at h
    · cases h
    · rename_i hfound
      cases h
      exact ⟨a, ha, hfound⟩

theorem find?_of_readAt_environment {field : String}
    (h : w.readAt (.environmentField field) = .ok v) : w.environment.find? field = some v := by
  simp only [readAt] at h
  split at h
  · cases h
  · rename_i hfound
    cases h
    exact hfound

theorem find?_of_readAt_metric {name : String} (h : w.readAt (.metric name) = .ok v) :
    w.metrics.find? name = some v := by
  simp only [readAt] at h
  split at h
  · cases h
  · rename_i hfound
    cases h
    exact hfound

theorem exists_event_of_readAt {eventType key : String}
    (h : w.readAt (.event eventType (some key)) = .ok (.number m)) :
    ∃ event, w.event? eventType = some event ∧ event.readEvent key = .ok (.number m) := by
  simp only [readAt] at h
  split at h
  · cases h
  · rename_i hkey
    cases hkey
  · rename_i event _ hevent hkey
    cases hkey
    exact ⟨event, hevent, h⟩

end Readings

/-- No other event has a number. -/
theorem readEvent_of_other {eventType otherType key name : String} {v : Value}
    (hother : otherType ≠ eventType)
    (hevent : (holding n (.event eventType (some key))).event? otherType = some v) :
    v.readEvent name ≠ .ok (.number m) := by
  have hshared : ∀ {v : Value}, Value.shared? otherType = some v →
      v.readEvent name ≠ .ok (.number m) := by
    intro v hv
    obtain ⟨thing, rfl⟩ := Value.native_of_shared? hv
    exact Value.readEvent_native_ne_number thing
  have hfound := (Option.filter_eq_some_iff.mp hevent).1
  simp only [holding, Record.get?_single, if_neg hother] at hfound
  by_cases hbase : Record.baseName = eventType
  · rw [if_pos hbase] at hfound
    dsimp only at hfound
    unfold Event.holding at hfound
    by_cases hkey : Event.fieldNames.contains key = true
    · rw [if_pos hkey, Value.property?_single] at hfound
      split at hfound
      · cases hfound
        exact Value.readEvent_number_ne_number
      · exact hshared hfound
    · rw [if_neg hkey, Value.property?_single] at hfound
      split at hfound
      · cases hfound
        exact Value.readEvent_payload_ne_number (Bool.eq_false_iff.mpr hkey)
      · exact hshared hfound
  · rw [if_neg hbase] at hfound
    exact hshared hfound

/-- No other cell holds a number. -/
theorem eq_of_readAt_holding (h : (holding n path).readAt other = .ok (.number m)) :
    other = path := by
  have hempty : ∀ name, (∅ : Record Value).find? name ≠ some (.number m) := by
    intro name hfound
    unfold Record.find? at hfound
    split at hfound
    · cases hfound
    · obtain ⟨thing, hthing⟩ := Value.native_of_shared? hfound
      cases hthing
  match other with
  | .agentField otherAgent otherField =>
    obtain ⟨a, ha, hfield⟩ := exists_agent_of_readAt h
    match path with
    | .agentField agent field =>
      rw [holding, Record.get?_single] at ha
      split at ha
      · rename_i hagent
        cases ha
        rw [hagent, Record.eq_of_find?_single hfield]
      · cases ha
    | .environmentField _ | .metric _ | .event _ none | .event _ (some _) => cases ha
  | .environmentField otherField =>
    have hfield := find?_of_readAt_environment h
    match path with
    | .environmentField field => rw [Record.eq_of_find?_single hfield]
    | .agentField .. | .metric _ | .event _ none | .event _ (some _) =>
      exact absurd hfield (hempty _)
  | .metric otherName =>
    have hname := find?_of_readAt_metric h
    match path with
    | .metric name => rw [Record.eq_of_find?_single hname]
    | .agentField .. | .environmentField _ | .event _ none | .event _ (some _) =>
      exact absurd hname (hempty _)
  | .event otherType none =>
    simp only [readAt] at h
    cases hevent : (holding n path).event? otherType with
    | none | some =>
      rw [hevent] at h
      cases h
  | .event otherType (some name) =>
    obtain ⟨event, hevent, hread⟩ := exists_event_of_readAt h
    have hshared : ∀ {w : World}, w.events = ∅ → w.event? otherType ≠ some event := by
      intro w hw hfound
      have hbase := (Option.filter_eq_some_iff.mp hfound).1
      simp only [hw] at hbase
      obtain ⟨thing, rfl⟩ := Value.native_of_shared? hbase
      exact Value.readEvent_native_ne_number thing hread
    match path with
    | .event eventType (some key) =>
      by_cases htype : otherType = eventType
      · subst htype
        rw [event?_holding] at hevent
        cases hevent
        rw [Event.eq_of_read_holding hread]
      · exact absurd hread (readEvent_of_other htype hevent)
    | .agentField .. | .environmentField _ | .metric _ | .event _ none =>
      exact absurd hevent (hshared rfl)

end World

namespace Expression

/-- A text between double braces, with a space on either side. -/
def braced (text : String) : String := "\x7b\x7b " ++ text ++ " \x7d\x7d"

variable {u w : World} {p : String} {path : Path} {n m : Number} {level : Level}
  {tokens : List Token} {tree : Tree}

section Spelling

theorem intercalate_dot (word : List Char) (words : List (List Char)) :
    ['.'].intercalate (word :: words) = word ++ dotted words := by
  induction words generalizing word with
  | nil => simp [dotted, List.intercalate]
  | cons next others ih =>
    rw [List.intercalate_cons_cons, ih]
    simp [dotted]

/-- A container is spelled as a name, with a letter at its start. -/
theorem exists_cons_of_mem_containers {container : String} (h : container ∈ Path.containers) :
    ∃ first name, container.toList = first :: name ∧ isNameStart first = true ∧
      ∀ c ∈ name, isNameChar c = true := by
  simp only [Path.containers, List.mem_cons, List.not_mem_nil, or_false] at h
  obtain rfl | rfl | rfl | rfl := h
  · exact ⟨'a', "gents".toList, rfl, rfl, List.all_eq_true.mp rfl⟩
  · exact ⟨'e', "nvironment".toList, rfl, rfl, List.all_eq_true.mp rfl⟩
  · exact ⟨'g', "lobal_metrics".toList, rfl, rfl, List.all_eq_true.mp rfl⟩
  · exact ⟨'e', "vents".toList, rfl, rfl, List.all_eq_true.mp rfl⟩

theorem words_eq_cons (path : Path) :
    ∃ container words, path.words = container :: words ∧ container ∈ Path.containers ∧
      words ≠ [] := by
  match path with
  | .agentField agent field => exact ⟨_, _, rfl, by decide, List.cons_ne_nil _ _⟩
  | .environmentField field => exact ⟨_, _, rfl, by decide, List.cons_ne_nil _ _⟩
  | .metric name => exact ⟨_, _, rfl, by decide, List.cons_ne_nil _ _⟩
  | .event eventType none => exact ⟨_, _, rfl, by decide, List.cons_ne_nil _ _⟩
  | .event eventType (some key) => exact ⟨_, _, rfl, by decide, List.cons_ne_nil _ _⟩

/-- A text that spells a path is a container with words below it. -/
theorem exists_dotted_of_parse? (h : Path.parse? p = some path) :
    ∃ first name words, p.toList = first :: name ++ dotted words ∧ isNameStart first = true ∧
      (∀ c ∈ name, isNameChar c = true) ∧ words ≠ [] ∧
      ∀ word ∈ words, Path.isWord word = true := by
  obtain ⟨container, words, hpath, hcontainer, hsome⟩ := words_eq_cons path
  obtain ⟨first, name, hspelled, hfirst, hname⟩ := exists_cons_of_mem_containers hcontainer
  refine ⟨first, name, words.map String.toList, ?_, hfirst, hname, by simpa using hsome, ?_⟩
  · rw [← Path.render_of_parse? h, Path.render, hpath, String.toList_intercalate, List.map_cons,
      hspelled]
    exact intercalate_dot _ _
  · unfold Path.parse? at h
    dsimp only at h
    split at h
    · rename_i hwords
      have hpieces := congrArg (List.map String.toList) (Path.words_of_ofWords? h)
      rw [hpath] at hpieces
      simp only [List.map_cons, List.map_map, Function.comp_def, String.toList_ofList,
        List.map_id_fun', id_eq] at hpieces
      intro word hword
      refine List.all_eq_true.mp hwords word ?_
      rw [← hpieces]
      exact List.mem_cons_of_mem _ hword
    · cases h

/-- A path without hyphens is spelled as a token. -/
theorem spells_of_parse? (h : Path.parse? p = some path) (hhyphen : '-' ∉ p.toList) :
    Spells (.path p) p.toList := by
  obtain ⟨first, name, words, hp, hfirst, hname, hsome, hwords⟩ := exists_dotted_of_parse? h
  have hnames : ∀ word ∈ words, IsName word := by
    intro word hword
    have hchars := hwords word hword
    simp only [Path.isWord, Bool.and_eq_true, Bool.not_eq_true', List.isEmpty_eq_false_iff,
      List.all_eq_true] at hchars
    refine ⟨hchars.1, fun c hc => ?_⟩
    have hmember : c ∈ p.toList := by
      rw [hp]
      refine List.mem_append_right _ (List.mem_flatMap.mpr ⟨word, hword, ?_⟩)
      exact List.mem_cons_of_mem _ hc
    have hother : c ≠ '-' := fun hc => hhyphen (hc ▸ hmember)
    simpa [Path.isWordChar, isNameChar, hother] using hchars.2 c hc
  have hspells := Spells.path hfirst hname hsome hnames
  rwa [← hp, String.ofList_toList] at hspells

/-- The characters of a path have no white space among them. -/
theorem not_isBlank_of_parse? (h : Path.parse? p = some path) {c : Char} (hc : c ∈ p.toList) :
    Text.isBlank c = false := by
  by_cases hdot : c = '.'
  · subst hdot
    decide
  · have hword := Path.isWordChar_of_parse? h hc hdot
    by_cases hhyphen : c = '-'
    · subst hhyphen
      decide
    · refine not_isBlank_of_isNameChar ?_
      simpa [Path.isWordChar, isNameChar, hhyphen] using hword

end Spelling

section Operands

theorem body?_braced (text : String) : body? (braced text) = some (" " ++ text ++ " ") := by
  have hlist : (braced text).toList =
      '\x7b' :: '\x7b' :: (' ' :: text.toList ++ [' ', '\x7d', '\x7d']) := by
    simp [braced]
  have htrim : Text.trimChars (braced text).toList = (braced text).toList := by
    rw [hlist]
    have hkept := @Text.trimChars_append [] ('\x7b' :: '\x7b' :: (' ' :: text.toList ++
      [' ', '\x7d', '\x7d'])) [] nofun nofun (List.cons_ne_nil _ _) rfl
      (by simp [List.getLast_cons]; rfl)
    rwa [List.append_nil] at hkept
  rw [body?, htrim, hlist]
  simp [String.append_assoc]

/-- Trimming leaves a path of a path with white space around it. -/
theorem trimChars_of_parse? (h : Path.parse? p = some path) {before after : List Char}
    (hbefore : ∀ c ∈ before, Text.isBlank c = true) (hafter : ∀ c ∈ after, Text.isBlank c = true) :
    Text.trimChars (before ++ (p.toList ++ after)) = p.toList := by
  have hne : p.toList ≠ [] := by
    obtain ⟨first, name, words, hp, -⟩ := exists_dotted_of_parse? h
    rw [hp]
    exact List.cons_ne_nil _ _
  exact Text.trimChars_append hbefore hafter hne (not_isBlank_of_parse? h (List.head_mem hne))
    (not_isBlank_of_parse? h (List.getLast_mem hne))

/-- A path in braces is read as the expression that it spells. -/
theorem resolve_braced (h : Path.parse? p = some path) (w : World) :
    w.resolve (.text (braced p)) = (evaluate p w).map .number := by
  have hblanks : ∀ c ∈ [' '], Text.isBlank c = true := List.all_eq_true.mp rfl
  have htrim : Text.trim (" " ++ p ++ " ") = p := by
    rw [Text.trim, String.toList_append, String.toList_append, List.append_assoc]
    exact (congrArg String.ofList (trimChars_of_parse? h hblanks hblanks)).trans
      String.ofList_toList
  unfold World.resolve
  dsimp only
  rw [body?_braced]
  dsimp only
  rw [htrim]

/-- A path is no expression. -/
theorem body?_of_parse? (h : Path.parse? p = some path) : body? p = none := by
  obtain ⟨first, name, words, hp, hfirst, -⟩ := exists_dotted_of_parse? h
  have htrim := @trimChars_of_parse? _ _ h [] [] nofun nofun
  rw [List.append_nil, List.nil_append, hp] at htrim
  rw [body?, hp, htrim]
  split
  · rename_i hbrace
    obtain rfl : first = '\x7b' := (List.cons.inj hbrace).1
    exact absurd hfirst (by decide)
  · rfl

/-- A path by itself is read as its cell. -/
theorem resolve_of_parse? (h : Path.parse? p = some path) (w : World) :
    w.resolve (.text p) = w.read p := by
  have hpath : isFieldPath p = true := by
    rw [isFieldPath, h]
    rfl
  unfold World.resolve
  dsimp only
  rw [body?_of_parse? h]
  exact if_pos hpath

/-- Without hyphens it is read in braces as the number in its cell, if there is one. -/
theorem resolve_braced_of_read (h : Path.parse? p = some path) (hhyphen : '-' ∉ p.toList)
    (hread : w.read p = .ok (.number n)) : w.resolve (.text (braced p)) = .ok (.number n) := by
  have htoken := token?_of_spells (spells_of_parse? h hhyphen) ends_nil
  have hsplits : Splits p.toList [.path p] := by
    rw [← List.append_nil p.toList]
    exact @Splits.token [] _ _ _ _ nofun (longest_of_token? htoken) (.done nofun)
  have hderives : Derives .sum [.path p] (.path p) := .part (.part (.path p))
  have hvalue : (Tree.path p).value? w = some n := by
    rw [Tree.value?, hread]
  rw [resolve_braced h, (evaluate_of_derives hsplits hderives).mpr hvalue]
  rfl

end Operands

section Hyphens

theorem mem_spanPath {cs : List Char} {c : Char} (hc : c ∈ (spanPath cs).1) :
    isNameChar c = true ∨ c = '.' := by
  induction cs with
  | nil => cases hc
  | cons d rest ih =>
    rw [spanPath] at hc
    split at hc
    · rename_i htaken
      rcases List.mem_cons.mp hc with rfl | hrest
      · rcases Bool.or_eq_true_iff.mp htaken with hname | hdot
        · exact .inl hname
        · exact .inr (beq_iff_eq.mp (Bool.and_eq_true_iff.mp hdot).1)
      · exact ih hrest
    · cases hc

/-- An expression that a path with a hyphen spells begins with another path. -/
theorem exists_head_of_splits (h : Path.parse? p = some path) (hhyphen : '-' ∈ p.toList)
    (hsplits : Splits p.toList tokens) :
    ∃ q, tokens.head? = some (.path q) ∧ q ≠ p := by
  obtain ⟨first, name, words, hp, hfirst, -⟩ := exists_dotted_of_parse? h
  have hvisible : Text.isBlank first = false :=
    not_isBlank_of_isNameChar (isNameChar_of_isNameStart hfirst)
  generalize hcs : p.toList = cs at hsplits
  cases hsplits with
  | done hblanks =>
    rw [hp] at hcs
    subst hcs
    rw [hblanks first List.mem_cons_self] at hvisible
    cases hvisible
  | @token blanks lexeme rest token _ hblanks hlongest hrest =>
    have hnone : blanks = [] := by
      cases blanks with
      | nil => rfl
      | cons c others =>
        rw [hp] at hcs
        cases (List.cons.inj hcs).1
        rw [hblanks first List.mem_cons_self] at hvisible
        cases hvisible
    subst hnone
    have htoken := token?_eq_some_iff.mpr ⟨lexeme, hcs.symm, hlongest⟩
    rw [hp, List.cons_append, token?_name hfirst] at htoken
    split at htoken
    · cases htoken
      refine ⟨_, rfl, ?_⟩
      rintro rfl
      rw [String.toList_ofList] at hhyphen
      rcases mem_spanPath hhyphen with hname | hdot
      · exact absurd hname (by decide)
      · exact absurd hdot (by decide)
    · cases htoken

/-- The path that an expression begins with is a number if the expression has a value. -/
theorem number_of_head (h : Derives level tokens tree) {q : String}
    (hhead : tokens.head? = some (.path q)) (hvalue : tree.value? w = some n) :
    ∃ m, w.read q = .ok (.number m) := by
  induction h generalizing n with
  | number | positive | negative | enclosed => cases hhead
  | path text =>
    cases hhead
    rw [Tree.value?] at hvalue
    split at hvalue
    · rename_i m hread
      exact ⟨m, hread⟩
    · cases hvalue
  | part _ ih => exact ih hhead hvalue
  | binary operation hleft _ ihleft _ =>
    obtain ⟨x, hx, -⟩ := Option.bind_eq_some_iff.mp hvalue
    obtain ⟨first, others, rfl⟩ := List.exists_cons_of_ne_nil hleft.ne_nil
    exact ihleft hhead hx

end Hyphens

/-- A path whose cell can hold a number reads alike by itself and in braces, if it has no
hyphens, and only then: with a hyphen, the world in which its cell is all there is gives
braces another value or none. -/
theorem path_reads_alike_iff (hpath : isFieldPath p = true)
    (hnumeric : ∃ u m, World.read u p = .ok (.number m)) :
    (∀ w n, World.read w p = .ok (.number n) → w.resolve (.text p) = .ok (.number n)) ∧
    ((∀ w n, World.read w p = .ok (.number n) → w.resolve (.text (braced p)) = .ok (.number n)) ↔
      '-' ∉ p.toList) := by
  obtain ⟨path, hparse⟩ := Option.isSome_iff_exists.mp hpath
  refine ⟨fun w n hread => (resolve_of_parse? hparse w).trans hread, ?_, ?_⟩
  · intro hsame hhyphen
    obtain ⟨u, m, hread⟩ := hnumeric
    obtain ⟨path, hparse, hcell⟩ := (World.require_bind_eq_ok_iff _ _ _).mp hread
    have hheld : World.read (World.holding m path) p = .ok (.number m) :=
      (World.require_bind_eq_ok_iff _ _ _).mpr ⟨path, hparse, World.readAt_holding hcell m⟩
    have hbraced := hsame _ m hheld
    rw [resolve_braced hparse] at hbraced
    cases hvalue : evaluate p (World.holding m path) with
    | error failure =>
      rw [hvalue] at hbraced
      cases hbraced
    | ok value =>
      obtain ⟨tokens, tree, hsplits, hderives, htree⟩ := exists_derives_of_evaluate hvalue
      obtain ⟨q, hhead, hother⟩ := exists_head_of_splits hparse hhyphen hsplits
      obtain ⟨k, hq⟩ := number_of_head hderives hhead htree
      obtain ⟨other, hparse', hcell'⟩ := (World.require_bind_eq_ok_iff _ _ _).mp hq
      rw [World.eq_of_readAt_holding hcell'] at hparse'
      exact hother (Path.eq_of_parse? hparse' hparse)
  · exact fun hhyphen w n hread => resolve_braced_of_read hparse hhyphen hread

/-- A world with a cell whose name has a hyphen, beside the one that it looks to be taken from. -/
def windy : World :=
  { (default : World) with
    environment := .ofList [("wind", .number 10), ("wind-5", .number 3)] }

theorem wind_reads_alike :
    isFieldPath "environment.wind" = true ∧
      World.read windy "environment.wind" = .ok (.number 10) ∧
      windy.resolve (.text (braced "environment.wind")) = .ok (.number 10) := by
  have hpath : isFieldPath "environment.wind" = true := by decide +kernel
  have hread : World.read windy "environment.wind" = .ok (.number 10) :=
    (World.require_bind_eq_ok_iff _ _ _).mpr ⟨.environmentField "wind", by decide +kernel, rfl⟩
  have halike := (path_reads_alike_iff hpath ⟨_, _, hread⟩).2
  exact ⟨hpath, hread, halike.mpr (by decide +kernel) windy 10 hread⟩

/-- A path with a hyphen is read in braces as a difference, from another cell. -/
theorem hyphen_reads_as_minus :
    isFieldPath "environment.wind-5" = true ∧
      World.read windy "environment.wind-5" = .ok (.number 3) ∧
      windy.resolve (.text (braced "environment.wind-5")) = .ok (.number 5) ∧
      (5 : Number) ≠ 3 := by
  have hparse : Path.parse? "environment.wind-5" = some (.environmentField "wind-5") := by
    decide +kernel
  have hsplits : Splits "environment.wind-5".toList
      [.path "environment.wind", .operation .minus, .number 5] :=
    @Splits.token [] "environment.wind".toList _ _ _ nofun
        (longest_of_token? (by decide +kernel)) <|
      @Splits.token [] ['-'] _ _ _ nofun (longest_of_token? (by decide +kernel)) <|
        @Splits.token [] ['5'] [] _ _ nofun (longest_of_token? (by decide +kernel)) (.done nofun)
  have hderives : Derives .sum [.path "environment.wind", .operation .minus, .number 5]
      (.binary .minus (.path "environment.wind") (.number 5)) :=
    .binary .minus (.part (.part (.path _))) (.part (.number 5))
  have hvalue : Tree.value? windy (.binary .minus (.path "environment.wind") (.number 5)) =
      some 5 := by decide +kernel
  refine ⟨by decide +kernel, ?_, ?_, by decide +kernel⟩
  · exact (World.require_bind_eq_ok_iff _ _ _).mpr ⟨_, hparse, rfl⟩
  · rw [resolve_braced hparse, (evaluate_of_derives hsplits hderives).mpr hvalue]
    rfl

end Expression

end Harbormaster
