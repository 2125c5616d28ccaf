import Mathlib.Data.List.Nodup
import Harbormaster.Event.Bus
import Harbormaster.Proofs.Number.Integers

/-!
The names from which events get their identifiers. A name joins texts by colons, and rules
and event types may have colons in theirs; but the number of the tick and the place of the
event in it come first, and digits are no colons. So a name tells both of them, whatever
stands behind. The number of the tick has to lie below `2 ^ 53`, since it is written in
another way from there on.
-/

namespace Harbormaster

/-- Texts are cut in one way only at the first place of a character. -/
private theorem cut_inj {c : Char} {a b x y : List Char} (ha : c ∉ a) (hb : c ∉ b)
    (h : a ++ c :: x = b ++ c :: y) : a = b ∧ x = y := by
  induction a generalizing b with
  | nil =>
    cases b with
    | nil => exact ⟨rfl, (List.cons.inj h).2⟩
    | cons d rest => exact absurd ((List.cons.inj h).1 ▸ List.mem_cons_self) hb
  | cons d rest ih =>
    cases b with
    | nil => exact absurd ((List.cons.inj h).1 ▸ List.mem_cons_self) ha
    | cons d' rest' =>
      obtain ⟨rfl, htail⟩ := List.cons.inj h
      obtain ⟨rfl, hrest⟩ := ih (fun hc => ha (List.mem_cons_of_mem _ hc))
        (fun hc => hb (List.mem_cons_of_mem _ hc)) htail
      exact ⟨rfl, hrest⟩

theorem colon_notMem_repr (n : Nat) : ':' ∉ n.repr.toList := by
  rw [Nat.toList_repr]
  intro hcolon
  have hdigit := Nat.isDigit_of_mem_toDigits (by decide) (by decide) hcolon
  exact absurd hdigit (by decide)

/-- A number in front of a colon can be told from what stands behind it. -/
theorem repr_colon_inj {m n : Nat} {s t : String}
    (h : m.repr ++ ":" ++ s = n.repr ++ ":" ++ t) : m = n ∧ s = t := by
  have hchars : m.repr.toList ++ ':' :: s.toList = n.repr.toList ++ ':' :: t.toList := by
    simpa using congrArg String.toList h
  obtain ⟨hdigits, hrest⟩ := cut_inj (colon_notMem_repr m) (colon_notMem_repr n) hchars
  exact ⟨Number.repr_inj (String.toList_inj.mp hdigits), String.toList_inj.mp hrest⟩

namespace EventBus

/-- The identifier that goes with a name. -/
def idOf (name : String) : Value := .text (Digest.identifier scope name)

/-- A name tells the tick and the place of its event. -/
theorem eventName_inj {m n i j : Nat} {rule rule' eventType eventType' : Value}
    (hm : m < Number.exactLimit) (hn : n < Number.exactLimit)
    (h : eventName (.number (.ofNat m)) i rule eventType =
      eventName (.number (.ofNat n)) j rule' eventType') : m = n ∧ i = j := by
  have htick : ∀ {k : Nat}, k < Number.exactLimit →
      (Value.number (.ofNat k)).plainText = k.repr := fun hk => Number.toText_ofNat hk
  unfold eventName at h
  rw [htick hm, htick hn] at h
  simp only [String.append_assoc] at h
  obtain ⟨htick, hrest⟩ := repr_colon_inj (s := i.repr ++ (":" ++ _)) (t := j.repr ++ (":" ++ _))
    (by simpa only [String.append_assoc] using h)
  obtain ⟨hplace, -⟩ := repr_colon_inj (s := _) (t := _)
    (by simpa only [String.append_assoc] using hrest)
  exact ⟨htick, hplace⟩

/-- The names that some events of a tick get, in order. -/
def names (tick : Value) (events : List Event) : List String :=
  events.mapIdx fun place event => eventName tick place event.sourceRule event.eventType

theorem names_concat (tick : Value) (events : List Event) (event : Event) :
    names tick (events ++ [event]) = names tick events ++
      [eventName tick events.length event.sourceRule event.eventType] := by
  simp [names, List.mapIdx_append]

theorem length_names (tick : Value) (events : List Event) :
    (names tick events).length = events.length :=
  List.length_mapIdx

/-- No two events of a tick get the same name. -/
theorem nodup_names {n : Nat} (hn : n < Number.exactLimit) (events : List Event) :
    (names (.number (.ofNat n)) events).Nodup := by
  rw [List.nodup_iff_injective_get]
  rintro ⟨i, hi⟩ ⟨j, hj⟩ hsame
  simp only [names, List.get_eq_getElem, List.getElem_mapIdx] at hsame
  obtain ⟨-, hplace⟩ := eventName_inj hn hn hsame
  exact Fin.ext hplace

/-- No two events of different ticks get the same name either. -/
theorem tick_of_mem_names {m n : Nat} {name : String} {events events' : List Event}
    (hm : m < Number.exactLimit) (hn : n < Number.exactLimit)
    (h : name ∈ names (.number (.ofNat m)) events)
    (h' : name ∈ names (.number (.ofNat n)) events') : m = n := by
  obtain ⟨i, hi, rfl⟩ := List.mem_mapIdx.mp h
  obtain ⟨j, hj, hsame⟩ := List.mem_mapIdx.mp h'
  exact (eventName_inj hm hn hsame.symm).1

end EventBus

end Harbormaster
