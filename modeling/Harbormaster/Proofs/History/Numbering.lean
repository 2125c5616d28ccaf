import Harbormaster.History.Cursor
import Harbormaster.Proofs.Number.Integers

/-!
The numbers of a history. A commit is numbered by its place, counted on from the time at which
the history begins. So the commit of a number can be found in two ways, by computing its place
or by looking through the numbers, and as long as ticks are counted exactly both find the same.
The number that is asked for may be any integer, also one that is too far away for its place to
be computed exactly.
-/

namespace Harbormaster

namespace World

variable {w : World}

theorem time_of_timeStep {n : Number} (h : w.timeStep = .number n) : w.time = n := by
  rw [time, h]
  rfl

/-- A document keeps the time of a world that counts exactly. -/
theorem timeStep_stored {n : Nat} (hlimit : n ≤ Number.exactLimit)
    (h : w.timeStep = .number (.ofNat n)) : w.stored.timeStep = .number (.ofNat n) := by
  simp [World.stored, h, Value.stored, Number.isFinite_ofNat hlimit]

/-- A world that may start a history counts its time in numbers. -/
theorem time_of_fault? (h : w.fault? = none) :
    ∃ n : Number, w.timeStep = .number n ∧ n.isFinite = true := by
  have htime : w.timeFault? = none :=
    (Option.or_eq_none_iff.mp (Option.or_eq_none_iff.mp h).2).2
  unfold World.timeFault? at htime
  cases hstep : w.timeStep with
  | number n =>
    cases n with
    | finite units fits => exact ⟨_, rfl, rfl⟩
    | infinite | notANumber => simp [hstep, Value.number?, Number.toInt?] at htime
  | missing | absent | boolean | text | list | record | native | fallback =>
    simp [hstep, Value.number?] at htime

/-- It begins at a whole number, which a document keeps. -/
theorem begins_of_fault? (h : w.fault? = none) :
    ∃ start : Nat, w.time.toInt? = some (start : Int) ∧
      w.stored.timeStep = .number (.ofNat start) := by
  obtain ⟨n, htime, hfinite⟩ := time_of_fault? h
  have hwhole : w.timeFault? = none :=
    (Option.or_eq_none_iff.mp (Option.or_eq_none_iff.mp h).2).2
  unfold World.timeFault? at hwhole
  rw [htime] at hwhole
  split at hwhole
  · rename_i count hcount
    split at hwhole
    · cases hwhole
    · rename_i hnegative
      obtain ⟨start, rfl⟩ := Int.eq_ofNat_of_zero_le (Int.not_lt.mp hnegative)
      have hn : n.toInt? = some (start : Int) := hcount
      refine ⟨start, ?_, ?_⟩
      · rw [time_of_timeStep htime, hn]
      · rw [← Number.eq_ofNat_of_toInt? hn, World.stored, htime]
        simp [Value.stored, hfinite]
  · cases hwhole

end World

namespace Store

open Number (exactLimit)

variable {ρ : Type} {s t : Store ρ} {start place : Nat} {c : Commit ρ} {x : Number} {n : Int}

section Commits

variable [Storable ρ] {tick : Value} {record : ρ} {w : World} {notice : Notice}

theorem commit_of_next (h : tick.sameItem (.number s.nextTick) = true) (record : ρ) (w : World) :
    ∃ t c notice, s.commit tick record w = .ok (t, c, notice) := by
  simp [commit, h]

theorem commit_of_other (h : tick.sameItem (.number s.nextTick) = false) (record : ρ)
    (w : World) : s.commit tick record w = .error (.store (.unexpectedTick s.nextTick tick)) := by
  simp [commit, h]

/-- What is accepted is kept as a document holds it, behind all that there was. -/
theorem of_commit (h : s.commit tick record w = .ok (t, c, notice)) :
    c = ⟨s.nextTick, Storable.stored record, w.stored⟩ ∧
      t = { s with commits := s.commits ++ [c] } := by
  unfold commit at h
  dsimp only at h
  split at h
  · cases h
    exact ⟨rfl, rfl⟩
  · cases h

end Commits

/-- A history begins with the world that it is given, as a document holds it. -/
theorem of_ofWorld {w : World} (h : ofWorld w = .ok s) :
    w.fault? = none ∧ s = ⟨w.stored, []⟩ := by
  unfold ofWorld at h
  split at h
  · cases h
  · rename_i hfault
    cases h
    exact ⟨hfault, rfl⟩

structure Numbered (start : Nat) (s : Store ρ) : Prop where
  begun : s.initial.time = .ofNat start
  ticks : s.commits.map (·.tick) =
    (List.range s.commits.length).map fun place => .ofNat place + .ofNat start

theorem numbered_of_ofWorld {w : World} (h : ofWorld w = .ok s) :
    ∃ start : Nat, w.time.toInt? = some (start : Int) ∧ Numbered start s ∧ s.commits = [] := by
  obtain ⟨hfault, rfl⟩ := of_ofWorld h
  obtain ⟨start, hbegins, hkept⟩ := World.begins_of_fault? hfault
  exact ⟨start, hbegins, ⟨World.time_of_timeStep hkept, rfl⟩, rfl⟩

theorem Numbered.nextTick (h : Numbered start s) :
    s.nextTick = .ofNat s.commits.length + .ofNat start := by
  rw [Store.nextTick, h.begun]

theorem Numbered.commit [Storable ρ] {tick : Value} {record : ρ} {w : World} {notice : Notice}
    (h : Numbered start s) (hcommit : s.commit tick record w = .ok (t, c, notice)) :
    Numbered start t := by
  obtain ⟨rfl, rfl⟩ := of_commit hcommit
  refine ⟨h.begun, ?_⟩
  dsimp only
  rw [List.map_append, h.ticks, List.length_append, List.length_singleton, List.range_succ,
    List.map_append, List.map_singleton, List.map_singleton, h.nextTick]

theorem Numbered.tick (h : Numbered start s) (hc : s.commits[place]? = some c) :
    c.tick = .ofNat place + .ofNat start := by
  obtain ⟨hplace, rfl⟩ := List.getElem?_eq_some_iff.mp hc
  have hticks := congrArg (·[place]?) h.ticks
  simpa [hplace] using hticks

section Exact

/-- Up to the limit the number of a commit is a whole number. -/
theorem Numbered.toInt?_tick (h : Numbered start s) (hc : s.commits[place]? = some c)
    (hlimit : start + place ≤ exactLimit) : c.tick.toInt? = some ((start + place : Nat) : Int) := by
  rw [h.tick hc, Number.ofNat_add (by omega) (by omega), Nat.add_comm]
  exact Number.toInt?_ofNat hlimit

/-- Up to the limit later numbers are greater. -/
theorem Numbered.pairwise_tick (h : Numbered start s)
    (hlimit : start + s.commits.length ≤ exactLimit) :
    s.commits.Pairwise fun former later => former.tick.lt later.tick = true := by
  rw [List.pairwise_iff_getElem]
  intro former later hformer hlater hbefore
  have hx := h.toInt?_tick (List.getElem?_eq_getElem hformer) (by omega)
  have hy := h.toInt?_tick (List.getElem?_eq_getElem hlater) (by omega)
  rw [Number.lt_iff_of_toInt? hx hy]
  omega

variable (h : Numbered start s) (hlimit : start + s.commits.length < exactLimit)
  (hx : x.toInt? = some n)

include h hlimit hx

theorem Numbered.tick_eq_iff (hc : s.commits[place]? = some c) :
    c.tick.eq x = true ↔ ((start + place : Nat) : Int) = n := by
  have hplace : place < s.commits.length := (List.getElem?_eq_some_iff.mp hc).1
  exact Number.eq_iff_of_toInt? (h.toInt?_tick hc (by omega)) hx

/-- The number of a commit is found at the place of the commit. -/
theorem Numbered.findIdx?_of_mem (hplace : place < s.commits.length)
    (hn : n = ((start + place : Nat) : Int)) :
    s.commits.findIdx? (·.tick.eq x) = some place := by
  rw [List.findIdx?_eq_some_iff_getElem]
  refine ⟨hplace, (h.tick_eq_iff hlimit hx (List.getElem?_eq_getElem hplace)).mpr hn.symm, ?_⟩
  intro former hformer hsame
  have hother := (h.tick_eq_iff hlimit hx (List.getElem?_eq_getElem (by omega))).mp hsame
  omega

/-- A number that is found is one of a commit. -/
theorem Numbered.of_findIdx? (hfound : s.commits.findIdx? (·.tick.eq x) = some place) :
    place < s.commits.length ∧ n = ((start + place : Nat) : Int) := by
  obtain ⟨hplace, hsame, -⟩ := List.findIdx?_eq_some_iff_getElem.mp hfound
  exact ⟨hplace, ((h.tick_eq_iff hlimit hx (List.getElem?_eq_getElem hplace)).mp hsame).symm⟩

/-- Nothing is lost when a place is too far away to be computed exactly: there is no commit at
any place that is so far. -/
theorem Numbered.commit?_eq :
    s.commit? x = if n - start < 0 then none else s.commits[(n - start).toNat]? := by
  have hstart : (Number.ofNat start).toInt? = some (start : Int) := Number.toInt?_ofNat (by omega)
  have hnone {m : Int} (hm : exactLimit ≤ m.natAbs) :
      (if m < 0 then none else s.commits[m.toNat]?) = none := by
    split
    · rfl
    · rw [List.getElem?_eq_none_iff]
      omega
  unfold commit?
  rw [h.begun, Number.sub_of_toInt? hx hstart]
  rcases Nat.lt_or_ge exactLimit (n - start).natAbs with hfar | hnear
  · rw [hnone hfar.le]
    cases hm : (Number.ofInt (n - start)).toInt? with
    | none => rfl
    | some m => exact hnone (Number.exactLimit_le_of_toInt?_ofInt hfar hm)
  · rw [Number.toInt?_ofInt hnear]

/-- Computing and looking find the same. -/
theorem Numbered.commit?_eq_seek (cursor : Cursor) :
    s.commit? x = (cursor.seek s.commits x).1 := by
  rw [h.commit?_eq hlimit hx, Cursor.seek]
  cases hfound : s.commits.findIdx? (·.tick.eq x) with
  | some place =>
    obtain ⟨hplace, rfl⟩ := h.of_findIdx? hlimit hx hfound
    have hnat : (((start + place : Nat) : Int) - start).toNat = place := by omega
    rw [if_neg (by omega), hnat]
    simp [Cursor.moveTo, List.getElem?_eq_getElem hplace]
  | none =>
    split
    · rfl
    · rename_i hn
      rw [List.getElem?_eq_none_iff]
      by_contra hplace
      have hmem := h.findIdx?_of_mem hlimit hx (Nat.lt_of_not_le hplace) (by omega)
      rw [hfound] at hmem
      cases hmem

end Exact

end Store

end Harbormaster
