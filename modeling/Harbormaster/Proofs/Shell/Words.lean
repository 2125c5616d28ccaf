import Harbormaster.Shell.Words
import Mathlib.Tactic

/-!
Command words in any letter case. A word of small ASCII letters is the small form of the
words that differ from it in the case of ASCII letters and of no others, although many
letters beyond ASCII have small forms: these lie beyond ASCII as well, except that of the
Kelvin sign, and the dotted capital I brings a dot with it.
-/

namespace Harbormaster

namespace Text

variable {c d : Char}

/-- A small ASCII letter other than `k`, which is the small form of the Kelvin sign too. -/
def IsPlainSmall (d : Char) : Prop := 97 ≤ d.toNat ∧ d.toNat ≤ 122 ∧ d.toNat ≠ 107

instance (d : Char) : Decidable (IsPlainSmall d) :=
  inferInstanceAs (Decidable (97 ≤ d.toNat ∧ d.toNat ≤ 122 ∧ d.toNat ≠ 107))

/-- Beyond ASCII no letter has a plain small letter for its small form. -/
theorem letterRuns_tail : ∀ run ∈ letterRuns.tail,
    192 ≤ run.first ∧ (128 ≤ (run.first : Int) + run.distance ∨
      run.first = run.last ∧ (run.first : Int) + run.distance = 107) := by
  decide +kernel

theorem toNat_toLower (c : Char) :
    c.toLower.toNat = if 65 ≤ c.toNat ∧ c.toNat ≤ 90 then c.toNat + 32 else c.toNat := by
  have hval : c.toNat = c.val.toNat := rfl
  unfold Char.toLower
  simp only [Char.reduceVal, ge_iff_le, UInt32.le_iff_toNat_le, UInt32.reduceToNat, hval]
  split
  · change (c.val + (97 - 65)).toNat = _
    rw [UInt32.toNat_add]
    simp
    omega
  · rfl

theorem toNat_ofNat {n : Nat} (h : n.isValidChar) : (Char.ofNat n).toNat = n := by
  rw [Char.ofNat, dif_pos h]
  rfl

theorem toNat_ofNat_of_not {n : Nat} (h : ¬ n.isValidChar) : (Char.ofNat n).toNat = 0 := by
  rw [Char.ofNat, dif_neg h]
  rfl

theorem le_of_contains {run : LetterRun} {n : Nat} (h : run.contains n = true) :
    run.first ≤ n ∧ n ≤ run.last := by
  simp only [LetterRun.contains, Bool.and_eq_true, decide_eq_true_eq] at h
  exact h.1

/-- The plain small letters are the small forms of ASCII letters only. -/
theorem smallLetter_eq_iff (hd : IsPlainSmall d) : smallLetter c = d ↔ c.toLower = d := by
  obtain ⟨hlow, hhigh, hkelvin⟩ := hd
  have hruns : letterRuns = ⟨0x41, 0x5a, 1, 32⟩ :: letterRuns.tail := rfl
  rw [← Char.toNat_inj, ← Char.toNat_inj, toNat_toLower]
  unfold smallLetter
  by_cases hcapital : 65 ≤ c.toNat ∧ c.toNat ≤ 90
  · have hfound : letterRuns.find? (·.contains c.toNat) = some ⟨0x41, 0x5a, 1, 32⟩ := by
      rw [hruns, List.find?_cons_of_pos]
      simp [LetterRun.contains, hcapital, Nat.mod_one]
    have hplace : ((c.toNat : Int) + 32).toNat = c.toNat + 32 := rfl
    have hvalid : (c.toNat + 32).isValidChar := .inl (by omega)
    rw [hfound, if_pos hcapital]
    dsimp only
    rw [hplace, toNat_ofNat hvalid]
  · rw [if_neg hcapital]
    cases hfound : letterRuns.find? (·.contains c.toNat) with
    | none => rfl
    | some run =>
      have hrun := List.find?_some hfound
      have hcontains : run.first ≤ c.toNat ∧ c.toNat ≤ run.last := le_of_contains hrun
      have htail : run ∈ letterRuns.tail := by
        have hmember := List.mem_of_find?_eq_some hfound
        rw [hruns] at hmember
        rcases List.mem_cons.mp hmember with rfl | htail
        · exact absurd hcontains hcapital
        · exact htail
      obtain ⟨hbeyond, hdistance⟩ := letterRuns_tail run htail
      dsimp only
      by_cases hvalid : (c.toNat + run.distance).toNat.isValidChar
      · rw [toNat_ofNat hvalid]
        omega
      · rw [toNat_ofNat_of_not hvalid]
        omega

theorem lowercaseFrom_eq_iff {ds : List Char} (hds : ∀ d ∈ ds, IsPlainSmall d)
    (before cs : List Char) : lowercaseFrom before cs = ds ↔ cs.map Char.toLower = ds := by
  induction cs generalizing before ds with
  | nil => rfl
  | cons c rest ih =>
    rw [lowercaseFrom, List.map_cons]
    cases ds with
    | nil =>
      have hsome : smallForm before c rest ≠ [] := by
        unfold smallForm
        split
        · exact List.cons_ne_nil _ _
        · split
          · exact List.cons_ne_nil _ _
          · exact List.cons_ne_nil _ _
      simp [hsome]
    | cons d others =>
      have hd := hds d List.mem_cons_self
      have hothers : ∀ x ∈ others, IsPlainSmall x := fun x hx => hds x (List.mem_cons_of_mem _ hx)
      unfold smallForm
      split
      · rename_i hdotted
        subst hdotted
        constructor
        · intro h
          -- the dot would be one of the letters
          have hdot : '\u0307' ∈ others := by
            rw [← (List.cons.inj h).2]
            exact List.mem_cons_self
          exact absurd (hothers _ hdot) (by decide)
        · intro h
          rw [← (List.cons.inj h).1] at hd
          exact absurd hd (by decide)
      · split
        · rename_i hsigma
          obtain rfl : c = '\u03a3' := by
            simp only [Bool.and_eq_true, decide_eq_true_eq] at hsigma
            exact hsigma.1.1
          constructor
          · intro h
            rw [← (List.cons.inj h).1] at hd
            exact absurd hd (by decide)
          · intro h
            rw [← (List.cons.inj h).1] at hd
            exact absurd hd (by decide)
        · rw [List.singleton_append, List.cons.injEq, List.cons.injEq, smallLetter_eq_iff hd,
            ih hothers]

end Text

namespace Shell

def command (typed : String) : Command := .ofText (Text.trim typed)

/-- Whether the first word of a line is `exit` in any letter case. -/
def IsExit (typed : String) : Prop :=
  ∃ word, (words (Text.trimChars typed.toList)).head? = some word ∧
    word.map Char.toLower = ['e', 'x', 'i', 't']

theorem name_eq_exit_iff (typed : String) : (command typed).name = "exit" ↔ IsExit typed := by
  have hline : (Text.trim typed).toList = Text.trimChars typed.toList := String.toList_ofList
  unfold command Command.ofText IsExit
  rw [hline]
  cases hwords : words (Text.trimChars typed.toList) with
  | nil => simp
  | cons word arguments =>
    have hsmall : ∀ d ∈ ['e', 'x', 'i', 't'], Text.IsPlainSmall d := by
      simp [Text.IsPlainSmall]
    have hlower := Text.lowercaseFrom_eq_iff hsmall [] word
    simp only [List.head?_cons, Option.some.injEq, exists_eq_left', ← hlower]
    rw [Text.lowercase, String.toList_ofList, ← String.toList_inj, String.toList_ofList]
    rfl

end Shell

end Harbormaster
