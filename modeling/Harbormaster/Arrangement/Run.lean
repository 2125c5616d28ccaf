import Harbormaster.Arrangement.Gallop

/-!
Runs: the stretches of a list that are in order already. A run is as long as its
items go on as they began; one whose items come before one another throughout is
turned round. A run that is too short takes in the items behind it, each put in
at its place. No item is lost: `perm_takeRun`.
-/

namespace Harbormaster.Arrangement

variable {α : Type} (before : α → α → Bool)

/-- Splits off the items that go on as the first two began: each before the one
in front of it, or none. -/
def splitRun (falling : Bool) (former : α) : List α → List α × List α
  | [] => ([], [])
  | item :: rest =>
    if before item former = falling then
      let (run, others) := splitRun falling item rest
      (item :: run, others)
    else ([], item :: rest)

/-- The run at the start of a list, in order, and the items behind it. -/
def naturalRun : List α → List α × List α
  | first :: second :: rest =>
    let falling := before second first
    let (run, others) := splitRun before falling second rest
    let run := first :: second :: run
    (if falling then run.reverse else run, others)
  | items => (items, [])

/-- Puts an item into a run, behind the items that it does not come before. -/
def insertByHalving (run : List α) (item : α) : List α :=
  let place := halve (fun n => !run[n]?.any (before item)) 0 run.length
  run.take place ++ item :: run.drop place

/-- The run at the start of a list, of at least `least` items if there are as
many, and the items behind it. -/
def takeRun (least : Nat) (items : List α) : List α × List α :=
  let (run, rest) := naturalRun before items
  let missing := least - run.length
  ((rest.take missing).foldl (insertByHalving before) run, rest.drop missing)

theorem splitRun_append (falling : Bool) (former : α) (items : List α) :
    (splitRun before falling former items).1 ++ (splitRun before falling former items).2
      = items := by
  induction items generalizing former with
  | nil => rfl
  | cons item rest ih =>
    unfold splitRun
    split
    · simp [ih item]
    · rfl

theorem perm_naturalRun (items : List α) :
    ((naturalRun before items).1 ++ (naturalRun before items).2).Perm items := by
  match items with
  | [] => exact .refl _
  | [item] => exact .refl _
  | first :: second :: rest =>
    have whole := splitRun_append before (before second first) second rest
    simp only [naturalRun]
    split
    · exact (List.Perm.append_right _ (List.reverse_perm _)).trans (by simp [whole])
    · simp [whole]

theorem naturalRun_ne_nil {items : List α} (h : items ≠ []) :
    (naturalRun before items).1 ≠ [] := by
  match items with
  | [item] => simp [naturalRun]
  | first :: second :: rest =>
    simp only [naturalRun]
    split <;> simp

theorem perm_insertByHalving (run : List α) (item : α) :
    (insertByHalving before run item).Perm (run ++ [item]) := by
  unfold insertByHalving
  exact List.perm_middle.trans <| by
    rw [List.take_append_drop]
    exact (List.perm_append_singleton item run).symm

theorem perm_foldl_insert (run items : List α) :
    (items.foldl (insertByHalving before) run).Perm (run ++ items) := by
  induction items generalizing run with
  | nil => simp
  | cons item rest ih =>
    refine (ih _).trans (((perm_insertByHalving before run item).append_right rest).trans ?_)
    simp

/-- A run and the items behind it are all the items of the list. -/
theorem perm_takeRun (least : Nat) (items : List α) :
    ((takeRun before least items).1 ++ (takeRun before least items).2).Perm items := by
  unfold takeRun
  refine ((perm_foldl_insert before _ _).append_right _).trans ?_
  rw [List.append_assoc, List.take_append_drop]
  exact perm_naturalRun before items

theorem takeRun_ne_nil (least : Nat) {items : List α} (h : items ≠ []) :
    (takeRun before least items).1 ≠ [] := by
  intro empty
  have whole := perm_foldl_insert before (naturalRun before items).1
    ((naturalRun before items).2.take (least - (naturalRun before items).1.length))
  simp only [takeRun] at empty
  simp only [empty, List.nil_perm, List.append_eq_nil_iff] at whole
  exact naturalRun_ne_nil before h whole.1

theorem length_takeRun_lt (least : Nat) {items : List α} (h : items ≠ []) :
    (takeRun before least items).2.length < items.length := by
  have whole := (perm_takeRun before least items).length_eq
  have some := List.length_pos_iff.2 (takeRun_ne_nil before least h)
  rw [List.length_append] at whole
  omega

end Harbormaster.Arrangement
