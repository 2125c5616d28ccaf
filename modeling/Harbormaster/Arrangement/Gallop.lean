/-!
Finding the place of a key among items in order. The search strides away from
where it starts, each stride twice as long as the last, and then halves what
lies between the last two places. `passed` tells of a place whether the key goes
behind the item there; nothing else is asked, and where the answers contradict
each other the place found hangs on which of them were asked for.
-/

namespace Harbormaster.Arrangement

/-- Doubles an offset for as long as `goesOn` holds of it and it stays below a
limit. Gives the last two offsets. -/
def stride (goesOn : Nat → Bool) (limit last offset : Nat) : Nat × Nat :=
  if offset < limit then
    if goesOn offset then stride goesOn limit offset (2 * offset + 1) else (last, offset)
  else (last, limit)
termination_by limit - offset

/-- The place of a key between two places, found by halving. -/
def halve (passed : Nat → Bool) (first last : Nat) : Nat :=
  if first < last then
    let middle := first + (last - first) / 2
    if passed middle then halve passed (middle + 1) last else halve passed first middle
  else first
termination_by last - first

/-- How many of `length` items a key goes behind, searched for from `start` on. -/
def gallop (passed : Nat → Bool) (length start : Nat) : Nat :=
  if passed start then
    let (last, offset) := stride (fun n => passed (start + n)) (length - start) 0 1
    halve passed (start + last + 1) (start + offset)
  else
    let (last, offset) := stride (fun n => !passed (start - n)) (start + 1) 0 1
    halve passed (start + 1 - offset) (start - last)

end Harbormaster.Arrangement
