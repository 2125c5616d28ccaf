import Harbormaster.Arrangement.Gallop

/-!
Merging two runs that follow each other. Items are taken one by one from the run
whose turn it is, and a run that wins often enough in a row is searched by
galloping instead. `patience` is how often that is: galloping that goes on makes
a merge less patient, and galloping that ends makes it more so. The shorter run
is the one set aside, so runs are merged from the front or from the back.
-/

namespace Harbormaster.Arrangement

variable {α : Type} (before : α → α → Bool)

/-- How a merge goes on: item by item, with the wins of either run in a row, or
galloping. -/
inductive Pace where
  | counting (leftWins rightWins : Nat)
  | galloping

/-- So many items passed at once make it worthwhile to go on galloping. -/
def worthwhile : Nat := 7

/-- The pace after wins in a row. -/
def Pace.after (patience leftWins rightWins : Nat) : Pace :=
  if patience ≤ leftWins ∨ patience ≤ rightWins then galloping
  else counting leftWins rightWins

/-- The pace and the patience after galloping past so many items of each run. -/
def Pace.next (patience leftWins rightWins : Nat) : Pace × Nat :=
  if worthwhile ≤ leftWins ∨ worthwhile ≤ rightWins then (galloping, max 1 (patience - 1))
  else (counting 0 0, patience + 1)

/-- The end of a merge from the front; `done` is in reverse order. A last item of
the left run goes behind the right run. -/
def finishFront (done left right : List α) : List α :=
  match left with
  | [last] => done.reverse ++ right ++ [last]
  | left => done.reverse ++ left ++ right

/-- Merges from the front for as long as the left run has two items and the right
run has one. -/
def mergeFront (pace : Pace) (patience : Nat) (done left right : List α) : List α × Nat :=
  match left, right with
  | a :: second :: left, b :: right =>
    match pace with
    | .counting leftWins rightWins =>
      if before b a then
        mergeFront (.after patience 0 (rightWins + 1)) patience (b :: done)
          (a :: second :: left) right
      else
        mergeFront (.after patience (leftWins + 1) 0) patience (a :: done)
          (second :: left) (b :: right)
    | .galloping =>
      let whole := a :: second :: left
      let leftWins := gallop (fun n => !whole[n]?.any (before b)) whole.length 0
      let done := (whole.take leftWins).reverse ++ done
      match _left : whole.drop leftWins with
      | key :: next :: others =>
        let rightWins := gallop (fun n => right[n]?.any (before · key)) right.length 0
        let done := (right.take rightWins).reverse ++ b :: done
        match others, _right : right.drop rightWins with
        | _, [] => (finishFront done (key :: next :: others) [], patience)
        | [], rest => (finishFront (key :: done) [next] rest, patience)
        | others, rest =>
          let (pace, patience) := Pace.next patience leftWins rightWins
          mergeFront pace patience (key :: done) (next :: others) rest
      | rest => (finishFront done rest (b :: right), patience)
  | left, right => (finishFront done left right, patience)
termination_by left.length + right.length
decreasing_by
  · simp only [List.length_cons]; omega
  · simp only [List.length_cons]; omega
  · have shorter := congrArg List.length _left
    have others := congrArg List.length _right
    simp only [whole, List.length_drop, List.length_cons] at shorter others ⊢
    omega

/-- The end of a merge from the back, where both runs are in reverse order. A
last item of the right run goes in front of the left run. -/
def finishBack (done left right : List α) : List α :=
  match right with
  | [last] => last :: left.reverse ++ done
  | right => left.reverse ++ right.reverse ++ done

/-- Merges from the back for as long as the right run has two items and the left
run has one. Both runs are in reverse order. -/
def mergeBack (pace : Pace) (patience : Nat) (done left right : List α) : List α × Nat :=
  match left, right with
  | a :: left, b :: second :: right =>
    match pace with
    | .counting leftWins rightWins =>
      if before b a then
        mergeBack (.after patience (leftWins + 1) 0) patience (a :: done) left
          (b :: second :: right)
      else
        mergeBack (.after patience 0 (rightWins + 1)) patience (b :: done) (a :: left)
          (second :: right)
    | .galloping =>
      let whole := (a :: left).reverse
      let stay := gallop (fun n => !whole[n]?.any (before b)) whole.length (whole.length - 1)
      let done := b :: whole.drop stay ++ done
      match _left : (whole.take stay).reverse, right with
      | key :: others, third :: right =>
        let rest := (second :: third :: right).reverse
        let settled := gallop (fun n => rest[n]?.any (before · key)) rest.length (rest.length - 1)
        let done := rest.drop settled ++ done
        match others, _right : (rest.take settled).reverse with
        | others, [] => (finishBack done (key :: others) [], patience)
        | others, [last] => (finishBack done (key :: others) [last], patience)
        | [], rest => (finishBack (key :: done) [] rest, patience)
        | others, rest' =>
          let (pace, patience) :=
            Pace.next patience (whole.length - stay) (rest.length - settled)
          mergeBack pace patience (key :: done) others rest'
      | rest, right => (finishBack done rest (second :: right), patience)
  | left, right => (finishBack done left right, patience)
termination_by left.length + right.length
decreasing_by
  · simp only [List.length_cons]; omega
  · simp only [List.length_cons]; omega
  · have shorter := congrArg List.length _left
    have others := congrArg List.length _right
    simp only [whole, rest, List.length_reverse, List.length_take, List.length_cons]
      at shorter others ⊢
    omega

end Harbormaster.Arrangement
