import Mathlib.Algebra.Order.Group.Multiset
import Mathlib.Tactic.Abel
import Harbormaster.Rule.Order

/-!
An arrangement is a permutation of the list it is given, whatever the order is:
one that contradicts itself moves items about but loses none of them and makes
none up. Each stage of a merge is counted as a multiset, so the orders in which
runs are set aside and turned round play no part. Whether the outcome is sorted
is not considered here.
-/

namespace Harbormaster.Arrangement

variable {α : Type} (before : α → α → Bool)

private theorem coe_take_add_drop (n : Nat) (items : List α) :
    ((items.take n : List α) : Multiset α) + (items.drop n : List α) = items := by
  rw [Multiset.coe_add, List.take_append_drop]

/-- A run that is merged from the back is split in reverse order. -/
private theorem coe_drop_add_take_reverse (n : Nat) (items : List α) :
    ((items.reverse.drop n : List α) : Multiset α) + ((items.reverse.take n).reverse : List α)
      = items := by
  rw [Multiset.coe_reverse, add_comm, coe_take_add_drop, Multiset.coe_reverse]

theorem coe_finishFront (done left right : List α) :
    (finishFront done left right : Multiset α) = done + (left + right) := by
  unfold finishFront
  split
  · simp only [← Multiset.coe_add, Multiset.coe_reverse]
    abel
  · simp only [← Multiset.coe_add, Multiset.coe_reverse]
    abel

theorem coe_finishBack (done left right : List α) :
    (finishBack done left right : Multiset α) = done + (left + right) := by
  unfold finishBack
  split
  · simp only [← Multiset.coe_add, ← Multiset.cons_coe, Multiset.coe_reverse,
      ← Multiset.singleton_add, Multiset.coe_nil]
    abel
  · simp only [← Multiset.coe_add, Multiset.coe_reverse]
    abel

/-- A merge from the front keeps what is done and the items of both runs. In the
galloping cases each run is what was passed at once and what is left of it. -/
theorem coe_mergeFront (pace : Pace) (patience : Nat) (done left right : List α) :
    ((mergeFront before pace patience done left right).1 : Multiset α) =
      done + (left + right) := by
  fun_induction mergeFront before pace patience done left right with
  | case1 _ _ _ _ _ _ _ _ _ _ ih | case2 _ _ _ _ _ _ _ _ _ _ ih =>
    rw [ih]
    simp only [← Multiset.cons_coe, ← Multiset.singleton_add]
    abel
  -- both runs are put together again from what was passed and what is left of them
  | case3 _ _ _ _ _ _ right whole leftWins taken key next others hleft rightWins done hright =>
    rw [coe_finishFront, ← coe_take_add_drop leftWins whole, ← Multiset.cons_coe _ right,
      ← coe_take_add_drop rightWins right, hleft, hright]
    simp only [done, taken, ← Multiset.coe_add, ← Multiset.cons_coe, Multiset.coe_reverse,
      ← Multiset.singleton_add, Multiset.coe_nil]
    abel
  | case4 _ _ _ _ _ _ right whole leftWins taken key next rightWins done hleft =>
    rw [coe_finishFront, ← coe_take_add_drop leftWins whole, ← Multiset.cons_coe _ right,
      ← coe_take_add_drop rightWins right, hleft]
    simp only [done, taken, ← Multiset.coe_add, ← Multiset.cons_coe, Multiset.coe_reverse,
      ← Multiset.singleton_add, Multiset.coe_nil]
    abel
  | case5 _ _ _ _ _ _ right whole leftWins taken key next rightWins done others _ _ _ _ _ hleft
      _ ih =>
    rw [ih, ← coe_take_add_drop leftWins whole, ← Multiset.cons_coe _ right,
      ← coe_take_add_drop rightWins right, hleft]
    simp only [done, taken, ← Multiset.coe_add, ← Multiset.cons_coe, Multiset.coe_reverse,
      ← Multiset.singleton_add]
    abel
  | case6 _ _ _ _ _ _ right whole leftWins taken =>
    rw [coe_finishFront, ← coe_take_add_drop leftWins whole]
    simp only [taken, ← Multiset.coe_add, Multiset.coe_reverse]
    abel
  | case7 _ _ done left right => exact coe_finishFront done left right

/-- A merge from the back keeps what is done and the items of both runs. -/
theorem coe_mergeBack (pace : Pace) (patience : Nat) (done left right : List α) :
    ((mergeBack before pace patience done left right).1 : Multiset α) =
      done + (left + right) := by
  fun_induction mergeBack before pace patience done left right with
  | case1 _ _ _ _ _ _ _ _ _ _ ih | case2 _ _ _ _ _ _ _ _ _ _ ih =>
    rw [ih]
    simp only [← Multiset.cons_coe, ← Multiset.singleton_add]
    abel
  | case3 _ _ a left b second whole stay kept key third right rest settled done others _ hright
      hleft =>
    rw [coe_finishBack, ← coe_drop_add_take_reverse stay (a :: left), ← Multiset.cons_coe b,
      ← coe_drop_add_take_reverse settled (second :: third :: right), hleft, hright]
    simp only [done, kept, whole, rest, ← Multiset.coe_add, ← Multiset.cons_coe,
      ← Multiset.singleton_add, Multiset.coe_nil]
    abel
  | case4 _ _ a left b second whole stay kept key third right rest settled done others last _
      hright hleft =>
    rw [coe_finishBack, ← coe_drop_add_take_reverse stay (a :: left), ← Multiset.cons_coe b,
      ← coe_drop_add_take_reverse settled (second :: third :: right), hleft, hright]
    simp only [done, kept, whole, rest, ← Multiset.coe_add, ← Multiset.cons_coe,
      ← Multiset.singleton_add, Multiset.coe_nil]
    abel
  | case5 _ _ a left b second whole stay kept key third right rest settled done hleft =>
    rw [coe_finishBack, ← coe_drop_add_take_reverse stay (a :: left), ← Multiset.cons_coe b,
      ← coe_drop_add_take_reverse settled (second :: third :: right), hleft]
    simp only [done, kept, whole, rest, ← Multiset.coe_add, ← Multiset.cons_coe,
      ← Multiset.singleton_add, Multiset.coe_nil]
    abel
  | case6 _ _ a left b second whole stay kept key third right rest settled done others _ _ _ _ _
      hleft _ _ ih =>
    rw [ih, ← coe_drop_add_take_reverse stay (a :: left), ← Multiset.cons_coe b,
      ← coe_drop_add_take_reverse settled (second :: third :: right), hleft]
    simp only [done, kept, whole, rest, ← Multiset.coe_add, ← Multiset.cons_coe,
      ← Multiset.singleton_add]
    abel
  | case7 _ _ a left b second whole stay kept right =>
    rw [coe_finishBack, ← coe_drop_add_take_reverse stay (a :: left), ← Multiset.cons_coe b]
    simp only [kept, whole, ← Multiset.coe_add, ← Multiset.cons_coe, ← Multiset.singleton_add]
    abel
  | case8 _ _ done left right => exact coe_finishBack done left right

/-- Neighbouring runs are merged without loss: what is in its place already stays
in front of the merge or behind it. -/
theorem coe_mergeRuns (patience : Nat) (left right : List α) :
    ((mergeRuns before patience left right).1 : Multiset α) = left + right := by
  unfold mergeRuns
  split
  · simp
  · rename_i first others
    dsimp only
    generalize gallop _ left.length 0 = placed
    split
    · rfl
    · rename_i last former hleft
      generalize gallop _ _ _ = kept
      split
      · rfl
      · rename_i head rest hright
        have hformer : ((left.drop placed : List α) : Multiset α) = last ::ₘ former := by
          rw [← Multiset.coe_reverse, hleft, Multiset.cons_coe]
        rw [← coe_take_add_drop placed left, ← coe_take_add_drop kept (first :: others), hright]
        split
        · simp only [← Multiset.coe_add, coe_mergeFront, ← Multiset.cons_coe,
            ← Multiset.singleton_add, Multiset.coe_nil]
          abel
        · simp only [← Multiset.coe_add, coe_mergeBack, hformer, Multiset.coe_reverse,
            ← Multiset.cons_coe, ← Multiset.singleton_add, Multiset.coe_nil]
          abel

private theorem coe_of_mergeRuns {patience next : Nat} {left right merged : List α}
    (h : mergeRuns before patience left right = (merged, next)) :
    (merged : Multiset α) = left + right := by
  rw [← coe_mergeRuns before patience left right, h]

/-- Merging runs to keep the lengths on the stack falling loses no item. -/
theorem coe_settle (patience : Nat) (runs : List (List α)) :
    ((settle before patience runs).1.flatten : Multiset α) = runs.flatten := by
  fun_induction settle before patience runs with
  | case1 _ _ _ _ _ _ _ _ _ hmerged ih | case3 _ _ _ _ _ _ _ _ _ hmerged ih
  | case4 _ _ _ _ _ _ _ _ _ hmerged ih =>
    rw [ih]
    simp only [List.flatten_cons, ← Multiset.coe_add, coe_of_mergeRuns before hmerged]
    abel
  | case5 _ _ _ _ _ _ hmerged =>
    simp only [List.flatten_cons, ← Multiset.coe_add, coe_of_mergeRuns before hmerged]
    abel
  | case2 | case6 | case7 => rfl

theorem coe_conclude (patience : Nat) (runs : List (List α)) :
    (conclude before patience runs : Multiset α) = runs.flatten := by
  fun_induction conclude before patience runs with
  | case1 _ _ _ _ _ _ _ _ hmerged ih | case2 _ _ _ _ _ _ _ _ hmerged ih =>
    rw [ih]
    simp only [List.flatten_cons, ← Multiset.coe_add, coe_of_mergeRuns before hmerged]
    abel
  | case3 patience top second =>
    rw [coe_mergeRuns]
    simp only [List.flatten_cons, List.flatten_nil, ← Multiset.coe_add, Multiset.coe_nil]
    abel
  | case4 | case5 => simp

theorem coe_arrangeFrom (least patience : Nat) (runs : List (List α)) (items : List α) :
    (arrangeFrom before least patience runs items : Multiset α) = runs.flatten + items := by
  fun_induction arrangeFrom before least patience runs items with
  | case1 patience runs => simp [coe_conclude]
  | case2 patience waiting first others taken runs next hsettled ih =>
    have hruns : (runs.flatten : Multiset α) = (taken.1 :: waiting).flatten := by
      rw [← coe_settle before patience (taken.1 :: waiting), hsettled]
    have htaken : (taken.1 : Multiset α) + taken.2 = (first :: others : List α) := by
      rw [Multiset.coe_add, Multiset.coe_eq_coe]
      exact perm_takeRun before least (first :: others)
    rw [ih, hruns, ← htaken, List.flatten_cons, ← Multiset.coe_add]
    abel

/-- No order, consistent or not, changes which items a list holds. -/
theorem perm_arrange (items : List α) : (arrange before items).Perm items := by
  rw [← Multiset.coe_eq_coe, arrange, coe_arrangeFrom]
  simp

/-- A list that is one run already is left as it is. -/
theorem arrange_of_run {items : List α} (h : naturalRun before items = (items, [])) :
    arrange before items = items := by
  have htaken : takeRun before (leastRun items.length) items = (items, []) := by
    simp [takeRun, h]
  cases items with
  | nil => simp [arrange, arrangeFrom, conclude]
  | cons first others =>
    unfold arrange
    rw [arrangeFrom, htaken]
    simp [settle, arrangeFrom, conclude]

end Harbormaster.Arrangement

namespace Harbormaster.Rule

/-- The order of priorities holds every rule of a set as often as the set does,
also when a priority is no number. -/
theorem perm_byPriority (rules : List Rule) : (byPriority rules).Perm rules := by
  unfold byPriority
  split
  · exact Arrangement.perm_arrange outranks rules
  · exact List.mergeSort_perm rules _

end Harbormaster.Rule
