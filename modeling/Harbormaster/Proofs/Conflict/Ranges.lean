import Mathlib.Data.List.Induction
import Harbormaster.Conflict.Basic
import Harbormaster.Proofs.Number.Finite
import Harbormaster.Proofs.Number.Order

/-!
Ranges. A range whose bounds are in order takes every number in between, also where the
bounds are infinite; most of what follows is about ranges of finite bounds. The meet of two
ranges holds the numbers that both of them hold, so the meet of any ranges that have a number
in common is determined by which ranges they are, whatever their order; and a number that was
clamped into a range before is clamped into a narrower one as if it had not been.
-/

namespace Harbormaster.ClampRange

variable {r s : ClampRange} {n point : Number} {ranges : List ClampRange}

def Ordered (r : ClampRange) : Prop := r.low.le r.high = true

instance : Decidable r.Ordered := inferInstanceAs (Decidable (r.low.le r.high = true))

structure Finite (r : ClampRange) : Prop where
  low : r.low.isFinite = true
  high : r.high.isFinite = true

structure Holds (r : ClampRange) (n : Number) : Prop where
  low : r.low.le n = true
  high : n.le r.high = true

theorem isNaN_clamp (h : r.Ordered) (n : Number) : (r.clamp n).isNaN = n.isNaN := by
  obtain ⟨hlow, hhigh⟩ := Number.isNaN_of_le h
  rw [clamp, Number.isNaN_min, Number.isNaN_max, hlow, hhigh, Bool.or_false, Bool.or_false]

/-- A number that is clamped into a range lies in it afterwards. -/
theorem holds_clamp (h : r.Ordered) (hn : n.isNaN = false) : r.Holds (r.clamp n) := by
  obtain ⟨hlow, hhigh⟩ := Number.isNaN_of_le h
  have hraised : (n.max r.low).isNaN = false := by rw [Number.isNaN_max, hn, hlow, Bool.or_self]
  exact ⟨Number.le_min (Number.le_max_right hn hlow) h, Number.min_le_right hraised hhigh⟩

/-- The meet of ranges in order is in order itself, unless nothing is left of it. -/
theorem Ordered.meet (hr : r.Ordered) (hs : s.Ordered)
    (h : (r.meet s).high.lt (r.meet s).low = false) : (r.meet s).Ordered := by
  obtain ⟨hlow, hhigh⟩ := Number.isNaN_of_le hr
  obtain ⟨hlow', hhigh'⟩ := Number.isNaN_of_le hs
  refine Number.le_of_lt_eq_false ?_ ?_ h
  · rw [ClampRange.meet, Number.isNaN_min, hhigh, hhigh', Bool.or_self]
  · rw [ClampRange.meet, Number.isNaN_max, hlow, hlow', Bool.or_self]

theorem holds_iff (hr : r.Finite) (hn : n.isFinite = true) :
    r.Holds n ↔ r.low.units ≤ n.units ∧ n.units ≤ r.high.units := by
  rw [← Number.le_iff_units hr.low hn, ← Number.le_iff_units hn hr.high]
  exact ⟨fun h => ⟨h.low, h.high⟩, fun h => ⟨h.1, h.2⟩⟩

theorem Finite.meet (hr : r.Finite) (hs : s.Finite) : (r.meet s).Finite :=
  ⟨Number.isFinite_max hr.low hs.low, Number.isFinite_min hr.high hs.high⟩

theorem holds_meet_iff (hr : r.Finite) (hs : s.Finite) (hn : n.isFinite = true) :
    (r.meet s).Holds n ↔ r.Holds n ∧ s.Holds n := by
  rw [holds_iff (hr.meet hs) hn, holds_iff hr hn, holds_iff hs hn]
  simp only [ClampRange.meet, Number.units_max hr.low hs.low, Number.units_min hr.high hs.high]
  omega

/-- Where a range holds a number its bounds are not reversed. -/
theorem Holds.not_reversed (h : r.Holds point) (hr : r.Finite) (hpoint : point.isFinite = true) :
    r.high.lt r.low = false := by
  have hbounds := (holds_iff hr hpoint).mp h
  rw [Bool.eq_false_iff]
  intro hreversed
  have hunits := (Number.lt_iff_units hr.high hr.low).mp hreversed
  omega

theorem isFinite_clamp (hr : r.Finite) (hn : n.isFinite = true) : (r.clamp n).isFinite = true :=
  Number.isFinite_min (Number.isFinite_max hn hr.low) hr.high

theorem units_clamp (hr : r.Finite) (hn : n.isFinite = true) :
    (r.clamp n).units = min (max n.units r.low.units) r.high.units := by
  unfold clamp
  rw [Number.units_min (Number.isFinite_max hn hr.low) hr.high, Number.units_max hn hr.low]

/-- A number that was clamped into a range is clamped into a part of it as before. -/
theorem clamp_meet_clamp (hr : r.Finite) (hs : s.Finite) (hn : n.isFinite = true)
    (hpoint : point.isFinite = true) (hcommon : (r.meet s).Holds point) :
    (r.meet s).clamp (r.clamp n) = (r.meet s).clamp n := by
  have hmeet := hr.meet hs
  have hclamped := isFinite_clamp hr hn
  have hbounds := (holds_iff hmeet hpoint).mp hcommon
  apply Number.eq_of_units (isFinite_clamp hmeet hclamped) (isFinite_clamp hmeet hn)
  rw [units_clamp hmeet hclamped, units_clamp hr hn, units_clamp hmeet hn]
  simp only [ClampRange.meet, Number.units_max hr.low hs.low, Number.units_min hr.high hs.high]
    at hbounds ⊢
  omega

/-- A range that holds the numbers that all of some ranges hold, of which there are
some. -/
structure IsMeet (ranges : List ClampRange) (r : ClampRange) : Prop where
  finite : r.Finite
  inhabited : ∃ point : Number, point.isFinite = true ∧ r.Holds point
  holds : ∀ n : Number, n.isFinite = true → (r.Holds n ↔ ∀ s ∈ ranges, s.Holds n)

/-- The bounds of a range are the least and the greatest number that it holds. -/
theorem IsMeet.unique (hr : IsMeet ranges r) (hs : IsMeet ranges s) : r = s := by
  have hbounds : ∀ {r : ClampRange}, IsMeet ranges r → r.Holds r.low ∧ r.Holds r.high := by
    intro r hr
    obtain ⟨point, hpoint, hheld⟩ := hr.inhabited
    have hunits := (holds_iff hr.finite hpoint).mp hheld
    constructor
    · rw [holds_iff hr.finite hr.finite.low]
      omega
    · rw [holds_iff hr.finite hr.finite.high]
      omega
  have hwithin : ∀ {r s : ClampRange}, IsMeet ranges r → IsMeet ranges s →
      ∀ {n : Number}, n.isFinite = true → r.Holds n → s.low.units ≤ n.units ∧
        n.units ≤ s.high.units := by
    intro r s hr hs n hn hheld
    rw [← holds_iff hs.finite hn, hs.holds n hn, ← hr.holds n hn]
    exact hheld
  have hlow := hwithin hr hs hr.finite.low (hbounds hr).1
  have hhigh := hwithin hr hs hr.finite.high (hbounds hr).2
  have hlow' := hwithin hs hr hs.finite.low (hbounds hs).1
  have hhigh' := hwithin hs hr hs.finite.high (hbounds hs).2
  have hlows : r.low = s.low := by
    apply Number.eq_of_units hr.finite.low hs.finite.low
    omega
  have hhighs : r.high = s.high := by
    apply Number.eq_of_units hr.finite.high hs.finite.high
    omega
  cases r
  cases s
  cases hlows
  cases hhighs
  rfl

theorem isMeet_singleton (hr : r.Finite) (hpoint : point.isFinite = true)
    (hheld : r.Holds point) : IsMeet [r] r := by
  refine ⟨hr, ⟨point, hpoint, hheld⟩, ?_⟩
  intro n _
  simp

theorem IsMeet.append (h : IsMeet ranges r) (hs : s.Finite) (hpoint : point.isFinite = true)
    (hall : ∀ t ∈ ranges, t.Holds point) (hheld : s.Holds point) :
    IsMeet (ranges ++ [s]) (r.meet s) := by
  refine ⟨h.finite.meet hs, ⟨point, hpoint, ?_⟩, ?_⟩
  · rw [holds_meet_iff h.finite hs hpoint, h.holds point hpoint]
    exact ⟨hall, hheld⟩
  · intro n hn
    rw [holds_meet_iff h.finite hs hn, h.holds n hn]
    simp [or_imp, forall_and]

theorem IsMeet.congr {others : List ClampRange} (h : IsMeet ranges r)
    (hsame : ∀ s, s ∈ ranges ↔ s ∈ others) : IsMeet others r := by
  refine ⟨h.finite, h.inhabited, ?_⟩
  intro n hn
  rw [h.holds n hn]
  simp only [hsame]

/-- Ranges with a number in common have a meet. -/
theorem exists_isMeet (hsome : ranges ≠ []) (hfinite : ∀ s ∈ ranges, s.Finite)
    (hpoint : point.isFinite = true) (hall : ∀ s ∈ ranges, s.Holds point) :
    ∃ r, IsMeet ranges r := by
  induction ranges using List.reverseRecOn with
  | nil => exact absurd rfl hsome
  | append_singleton former last ih =>
    have hlast : last ∈ former ++ [last] := by simp
    by_cases hfirst : former = []
    · subst hfirst
      exact ⟨last, isMeet_singleton (hfinite last hlast) hpoint (hall last hlast)⟩
    · have hformer : ∀ {s}, s ∈ former → s ∈ former ++ [last] := List.mem_append_left _
      obtain ⟨r, hr⟩ :=
        ih hfirst (fun s hs => hfinite s (hformer hs)) fun s hs => hall s (hformer hs)
      exact ⟨r.meet last, hr.append (hfinite last hlast) hpoint (fun s hs => hall s (hformer hs))
        (hall last hlast)⟩

end Harbormaster.ClampRange
