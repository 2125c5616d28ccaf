import Mathlib.Data.List.Pairwise
import Harbormaster.Proofs.Arrangement.Permutation
import Harbormaster.Proofs.Number.Order

/-!
The order in which rules have their turn. Where every priority is a number the
order is the one by descending priority in which rules of equal priority stay as
they were declared. Nothing is said of rule sets with a priority that is no number,
which have no such order.
-/

namespace Harbormaster

section Sorting

variable {α : Type} {le : α → α → Bool}

/-- A list is cut in one place only into items with a property and items without it. -/
private theorem append_inj_of_split {q : α → Bool} {former former' later later' : List α}
    (h : former ++ later = former' ++ later') (hformer : ∀ a ∈ former, q a = true)
    (hformer' : ∀ a ∈ former', q a = true) (hlater : ∀ a ∈ later, q a = false)
    (hlater' : ∀ a ∈ later', q a = false) : former = former' ∧ later = later' := by
  have hkept := congrArg (List.filter q) h
  rw [List.filter_append, List.filter_append, List.filter_eq_self.mpr hformer,
    List.filter_eq_self.mpr hformer', List.filter_eq_nil_iff.mpr (by simpa using hlater),
    List.filter_eq_nil_iff.mpr (by simpa using hlater'), List.append_nil, List.append_nil] at hkept
  subst hkept
  exact ⟨rfl, List.append_cancel_left h⟩

private theorem le_of_mergeSort (htrans : ∀ a b c, le a b = true → le b c = true → le a c = true)
    (htotal : ∀ a b, (le a b || le b a) = true) {items former later : List α} {a : α}
    (h : items.mergeSort le = former ++ a :: later) : ∀ b ∈ later, le a b = true := by
  have hsorted := List.pairwise_mergeSort htrans htotal items
  rw [h] at hsorted
  exact (List.pairwise_cons.mp (List.pairwise_append.mp hsorted).2.1).1

/-- A stable sort may as well leave items out before it sorts. -/
theorem filter_mergeSort (htrans : ∀ a b c, le a b = true → le b c = true → le a c = true)
    (htotal : ∀ a b, (le a b || le b a) = true) (p : α → Bool) (items : List α) :
    (items.mergeSort le).filter p = (items.filter p).mergeSort le := by
  induction items with
  | nil => simp
  | cons a rest ih =>
    obtain ⟨former, later, hwhole, hrest, hformer⟩ := List.mergeSort_cons htrans htotal a rest
    have hlater := le_of_mergeSort htrans htotal hwhole
    rw [hwhole, List.filter_append]
    by_cases hp : p a = true
    · obtain ⟨former', later', hwhole', hrest', hformer'⟩ :=
        List.mergeSort_cons htrans htotal a (rest.filter p)
      have hlater' := le_of_mergeSort htrans htotal hwhole'
      -- without the item both are one list, cut where the item belongs
      have hcut : former.filter p ++ later.filter p = former' ++ later' := by
        rw [← List.filter_append, ← hrest, ih, hrest']
      obtain ⟨hsame, hsame'⟩ := append_inj_of_split (q := fun b => !le a b) hcut
        (fun b hb => hformer b (List.mem_of_mem_filter hb)) hformer'
        (fun b hb => by simp [hlater b (List.mem_of_mem_filter hb)])
        fun b hb => by simp [hlater' b hb]
      rw [List.filter_cons_of_pos hp, List.filter_cons_of_pos hp, hwhole', hsame, hsame']
    · rw [List.filter_cons_of_neg hp, List.filter_cons_of_neg hp, ← List.filter_append, ← hrest, ih]

end Sorting

namespace Rule

/-- An order of declared rules by descending priority, in which rules that do not
outrank each other stay as declared. -/
structure InOrder (declared order : List Rule) : Prop where
  perm : order.Perm declared
  descending : order.Pairwise fun a b => b.outranks a = false
  asDeclared : ∀ {a b : Rule}, [a, b].Sublist declared → b.outranks a = false →
    [a, b].Sublist order

private def numericRank (rule : Rule) : Number := if rule.rank.isNaN then 0 else rule.rank

private theorem isNaN_numericRank (rule : Rule) : rule.numericRank.isNaN = false := by
  unfold numericRank
  split
  · rfl
  · rename_i hnumber
    simpa using hnumber

private def stays (a b : Rule) : Bool := !a.numericRank.lt b.numericRank

private theorem stays_trans (a b c : Rule) (hab : stays a b = true) (hbc : stays b c = true) :
    stays a c = true := by
  unfold stays at hab hbc ⊢
  rw [Bool.not_eq_true'] at hab hbc ⊢
  exact Number.lt_eq_false_trans (isNaN_numericRank b) hab hbc

private theorem stays_total (a b : Rule) : (stays a b || stays b a) = true :=
  Number.lt_asymm _ _

variable {rules : List Rule}

private theorem stays_eq (hnumbers : ∀ rule ∈ rules, rule.rank.isNaN = false) {a b : Rule}
    (ha : a ∈ rules) (hb : b ∈ rules) : stays a b = !b.outranks a := by
  unfold stays numericRank outranks
  rw [if_neg (by simp [hnumbers a ha]), if_neg (by simp [hnumbers b hb])]

/-- Where all priorities are numbers, sorting by them sorts by a total order. -/
private theorem byPriority_eq (hnumbers : ∀ rule ∈ rules, rule.rank.isNaN = false) :
    byPriority rules = rules.mergeSort stays := by
  have hnone : rules.any (·.rank.isNaN) = false := by
    simpa using hnumbers
  have hsame := List.map_mergeSort (r := fun a b => !outranks b a) (s := stays)
    (f := fun rule => rule) (l := rules) fun a ha b hb => (stays_eq hnumbers ha hb).symm
  simpa [byPriority, hnone] using hsame

theorem inOrder_byPriority (hnumbers : ∀ rule ∈ rules, rule.rank.isNaN = false) :
    InOrder rules (byPriority rules) := by
  have hperm := perm_byPriority rules
  refine ⟨hperm, ?_, ?_⟩
  · have hsorted := List.pairwise_mergeSort stays_trans stays_total rules
    rw [← byPriority_eq hnumbers] at hsorted
    refine hsorted.imp_of_mem ?_
    intro a b ha hb hstays
    rwa [stays_eq hnumbers (hperm.mem_iff.mp ha) (hperm.mem_iff.mp hb),
      Bool.not_eq_true'] at hstays
  · intro a b hdeclared hequal
    have ha : a ∈ rules := hdeclared.subset (by simp)
    have hb : b ∈ rules := hdeclared.subset (by simp)
    have hstays : stays a b = true := by
      rw [stays_eq hnumbers ha hb, hequal]
      rfl
    rw [byPriority_eq hnumbers]
    exact List.pair_sublist_mergeSort stays_trans stays_total hstays hdeclared

/-- Leaving rules out does not change the order of the others. -/
theorem byPriority_filter (hnumbers : ∀ rule ∈ rules, rule.rank.isNaN = false)
    (p : Rule → Bool) : byPriority (rules.filter p) = (byPriority rules).filter p := by
  rw [byPriority_eq hnumbers,
    byPriority_eq fun rule hrule => hnumbers rule (List.mem_of_mem_filter hrule),
    filter_mergeSort stays_trans stays_total]

/-- Rules that are declared in their order are left in it. -/
theorem byPriority_eq_self (hnumbers : ∀ rule ∈ rules, rule.rank.isNaN = false)
    (hsorted : rules.Pairwise fun a b => b.outranks a = false) : byPriority rules = rules := by
  have hnone : rules.any (·.rank.isNaN) = false := by
    simpa using hnumbers
  unfold byPriority
  rw [hnone]
  exact List.mergeSort_of_pairwise (hsorted.imp fun h => by rw [h]; rfl)

/-- Where no two rules rank the same there is one order only. -/
theorem byPriority_eq_of_perm (hnumbers : ∀ rule ∈ rules, rule.rank.isNaN = false)
    {order : List Rule} (hperm : order.Perm rules)
    (hstrict : order.Pairwise fun a b => a.outranks b = true) : byPriority rules = order := by
  have hinOrder := inOrder_byPriority hnumbers
  have hsymm : Std.Symm fun a b : Rule => a.outranks b = true ∨ b.outranks a = true :=
    ⟨fun _ _ h => h.symm⟩
  have hapart : order.Pairwise fun a b => a.outranks b = true ∨ b.outranks a = true :=
    hstrict.imp Or.inl
  refine List.Perm.eq_of_pairwise ?_ hinOrder.descending (hstrict.imp fun {a b} h => ?_)
    (hinOrder.perm.trans hperm.symm)
  · intro a b ha hb hab hba
    by_contra hne
    have ha' := (hinOrder.perm.trans hperm.symm).mem_iff.mp ha
    rcases hapart.forall ha' hb hne with hranks | hranks
    · rw [hba] at hranks
      cases hranks
    · rw [hab] at hranks
      cases hranks
  · have hone := Number.lt_asymm a.rank b.rank
    unfold outranks at h ⊢
    simpa [h] using hone

/-- Rules of which none ranks above the one in front of it, some of them by priorities that
are no numbers, are left in their order. -/
theorem byPriority_eq_self_of_run (hnone : rules.any (·.rank.isNaN) = true)
    (hrun : Arrangement.naturalRun outranks rules = (rules, [])) : byPriority rules = rules := by
  unfold byPriority
  rw [hnone]
  exact Arrangement.arrange_of_run outranks hrun

end Rule

end Harbormaster
