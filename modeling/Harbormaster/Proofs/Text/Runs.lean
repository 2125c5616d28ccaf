import Mathlib.Data.List.Basic
import Mathlib.Data.List.TakeWhile
import Harbormaster.Text.Blank

/-!
Runs of characters of one kind. A reader that takes such characters as long as there are
any takes a whole run, if what follows it does not begin with one of the kind; and what
stands between two runs of white space is what is left when a text is trimmed.
-/

namespace Harbormaster.Text

variable {p : Char → Bool} {run rest : List Char}

theorem takeWhile_run (hrun : ∀ c ∈ run, p c = true) (hend : ∀ c ∈ rest.head?, p c = false) :
    (run ++ rest).takeWhile p = run := by
  rw [List.takeWhile_append_of_pos hrun]
  cases rest with
  | nil => simp
  | cons c rest => simp [hend c rfl]

theorem dropWhile_run (hrun : ∀ c ∈ run, p c = true) (hend : ∀ c ∈ rest.head?, p c = false) :
    (run ++ rest).dropWhile p = rest := by
  rw [List.dropWhile_append_of_pos hrun]
  cases rest with
  | nil => rfl
  | cons c rest => simp [hend c rfl]

/-- What stands between white space is what is left when a text is trimmed. -/
theorem trimChars_append {before cs after : List Char}
    (hbefore : ∀ c ∈ before, isBlank c = true) (hafter : ∀ c ∈ after, isBlank c = true)
    (hne : cs ≠ []) (hfirst : isBlank (cs.head hne) = false)
    (hlast : isBlank (cs.getLast hne) = false) : trimChars (before ++ (cs ++ after)) = cs := by
  have hleft : (before ++ (cs ++ after)).dropWhile isBlank = cs ++ after := by
    refine dropWhile_run hbefore ?_
    obtain ⟨c, tail, rfl⟩ := List.exists_cons_of_ne_nil hne
    rintro _ ⟨⟩
    exact hfirst
  have hright : (after.reverse ++ cs.reverse).dropWhile isBlank = cs.reverse := by
    refine dropWhile_run (fun c hc => hafter c (List.mem_reverse.mp hc)) ?_
    obtain ⟨front, c, rfl⟩ : ∃ front c, cs = front ++ [c] :=
      ⟨_, _, (List.dropLast_concat_getLast hne).symm⟩
    rw [List.reverse_append]
    rintro _ ⟨⟩
    simpa using hlast
  rw [trimChars, hleft, List.reverse_append, hright, List.reverse_reverse]

/-- A text that trimming leaves as it is begins and ends without white space. -/
theorem ends_of_trimmed {cs : List Char} (h : trimChars cs = cs) (hne : cs ≠ []) :
    isBlank (cs.head hne) = false ∧ isBlank (cs.getLast hne) = false := by
  have hlength : ((cs.dropWhile isBlank).reverse.dropWhile isBlank).length = cs.length := by
    rw [← List.length_reverse]
    exact congrArg List.length h
  have hright := (List.dropWhile_sublist isBlank (l := (cs.dropWhile isBlank).reverse)).length_le
  rw [hlength, List.length_reverse] at hright
  have hleft : cs.dropWhile isBlank = cs :=
    (List.dropWhile_sublist isBlank).eq_of_length_le hright
  rw [trimChars, hleft] at h
  have hreverse : cs.reverse.dropWhile isBlank = cs.reverse := by
    rw [← List.reverse_reverse (cs.reverse.dropWhile isBlank), h]
  constructor
  · have hhead := List.head_dropWhile_not isBlank (l := cs) (by rwa [hleft])
    simpa only [hleft] using hhead
  · have hlast := List.head_dropWhile_not isBlank (l := cs.reverse) (by simpa [hreverse] using hne)
    simpa only [hreverse, List.head_reverse] using hlast

/-- White space and nothing else. -/
def Blank (cs : List Char) : Prop := ∀ c ∈ cs, isBlank c = true

instance : DecidablePred Blank := fun cs =>
  decidable_of_iff (cs.all isBlank = true) List.all_eq_true

theorem blank_nil : Blank [] := fun _ hc => absurd hc List.not_mem_nil

theorem isAllBlank_iff {s : String} : isAllBlank s = true ↔ Blank s.toList := List.all_eq_true

/-- Trimming takes white space off on both sides, as far as it goes. -/
theorem exists_trimmed (cs : List Char) :
    ∃ before after, Blank before ∧ Blank after ∧ cs = before ++ (trimChars cs ++ after) ∧
      ∀ hne : trimChars cs ≠ [], isBlank ((trimChars cs).head hne) = false ∧
        isBlank ((trimChars cs).getLast hne) = false := by
  let rest := cs.dropWhile isBlank
  have hrest : trimChars cs ++ (rest.reverse.takeWhile isBlank).reverse = rest := by
    rw [trimChars, ← List.reverse_append, List.takeWhile_append_dropWhile, List.reverse_reverse]
  refine ⟨cs.takeWhile isBlank, (rest.reverse.takeWhile isBlank).reverse, ?_, ?_, ?_, ?_⟩
  · exact fun c hc => List.mem_takeWhile_imp hc
  · exact fun c hc => List.mem_takeWhile_imp (List.mem_reverse.mp hc)
  · rw [hrest, List.takeWhile_append_dropWhile]
  · intro hne
    constructor
    · have hsome : rest ≠ [] := hrest ▸ List.append_ne_nil_of_left_ne_nil hne _
      have hhead := List.head_dropWhile_not isBlank (l := cs) hsome
      have hsame : rest.head? = (trimChars cs).head? :=
        (congrArg List.head? hrest).symm.trans (List.head?_append_of_ne_nil _ hne)
      rw [List.head?_eq_some_head hsome, List.head?_eq_some_head hne] at hsame
      rwa [← Option.some.inj hsame]
    · have hsome : rest.reverse.dropWhile isBlank ≠ [] :=
        fun hnil => hne (by rw [trimChars, hnil, List.reverse_nil])
      have hlast := List.head_dropWhile_not isBlank (l := rest.reverse) hsome
      rwa [← List.getLast_reverse] at hlast

theorem trimChars_of_blank {cs : List Char} (h : Blank cs) : trimChars cs = [] := by
  have hnone : cs.dropWhile isBlank = [] := List.dropWhile_eq_nil_iff.mpr h
  rw [trimChars, hnone]
  rfl

/-- Nothing is left of white space, and of nothing else. -/
theorem trimChars_eq_nil_iff {cs : List Char} : trimChars cs = [] ↔ Blank cs := by
  refine ⟨fun hnil => ?_, trimChars_of_blank⟩
  obtain ⟨before, after, hbefore, hafter, hcs, -⟩ := exists_trimmed cs
  rw [hnil, List.nil_append] at hcs
  rw [hcs]
  exact List.forall_mem_append.mpr ⟨hbefore, hafter⟩

/-- A trimmed text is what is left of it, whatever white space stands around it. -/
theorem trimChars_between {before cs after : List Char} (hbefore : Blank before)
    (hafter : Blank after) (htrim : trimChars cs = cs) :
    trimChars (before ++ (cs ++ after)) = cs := by
  rcases eq_or_ne cs [] with rfl | hne
  · exact trimChars_of_blank (List.forall_mem_append.mpr ⟨hbefore, hafter⟩)
  · obtain ⟨hfirst, hlast⟩ := ends_of_trimmed htrim hne
    exact trimChars_append hbefore hafter hne hfirst hlast

/-- A text without white space has nothing to trim. -/
theorem trimChars_of_forall {cs : List Char} (h : ∀ c ∈ cs, isBlank c = false) :
    trimChars cs = cs := by
  have hleft : cs.dropWhile isBlank = cs :=
    @dropWhile_run _ [] _ (by simp) fun c hc => h c (List.mem_of_mem_head? hc)
  have hright : cs.reverse.dropWhile isBlank = cs.reverse :=
    @dropWhile_run _ [] _ (by simp)
      fun c hc => h c (List.mem_reverse.mp (List.mem_of_mem_head? hc))
  rw [trimChars, hleft, hright, List.reverse_reverse]

/-- There is nothing left to trim from what has been trimmed. -/
theorem trimChars_trimChars (cs : List Char) : trimChars (trimChars cs) = trimChars cs := by
  rcases eq_or_ne (trimChars cs) [] with hnil | hne
  · rw [hnil]
    rfl
  · obtain ⟨-, -, -, -, -, hends⟩ := exists_trimmed cs
    obtain ⟨hfirst, hlast⟩ := hends hne
    simpa using trimChars_append blank_nil blank_nil hne hfirst hlast

theorem toList_trim (s : String) : (trim s).toList = trimChars s.toList :=
  String.toList_ofList

end Harbormaster.Text
