import Mathlib.Data.List.Induction
import Harbormaster.Proofs.Value.Solid

/-!
Members written one over the other. What was written last under a name is what a record
holds there, so an earlier write leaves no trace, and neither does one that is taken back;
writing what is there already changes nothing. What all members are, they stay as long as
what is written is that too.
-/

namespace Harbormaster.Record

variable {α β : Type} {r : Record α} {name : String} {value : α} {members : List (String × α)}

section Replacing

theorem replaceEntry_self {entries : List (String × α)} (h : lookupIn name entries = some value) :
    replaceEntry name value entries = entries := by
  induction entries with
  | nil => rfl
  | cons entry rest ih =>
    obtain ⟨key, former⟩ := entry
    unfold lookupIn at h
    unfold replaceEntry
    by_cases hkey : key = name
    · rw [if_pos hkey] at h ⊢
      cases h
      rfl
    · rw [if_neg hkey] at h ⊢
      rw [ih h]

theorem replaceEntry_replaceEntry (former : α) (entries : List (String × α)) :
    replaceEntry name value (replaceEntry name former entries) =
      replaceEntry name value entries := by
  induction entries with
  | nil => rfl
  | cons entry rest ih => grind [replaceEntry]

theorem replaceEntry_addEntry {entries : List (String × α)} (h : lookupIn name entries = none)
    (former : α) :
    replaceEntry name value (addEntry name former entries) = addEntry name value entries := by
  induction entries with
  | nil => simp [addEntry, replaceEntry]
  | cons entry rest ih => grind [replaceEntry, addEntry, lookupIn]

theorem filter_replaceEntry_ne (entries : List (String × α)) :
    (replaceEntry name value entries).filter (·.1 ≠ name) = entries.filter (·.1 ≠ name) := by
  induction entries with
  | nil => rfl
  | cons entry rest ih => grind [replaceEntry]

theorem map_entries_replaceEntry (f : α → β) (entries : List (String × α)) :
    (replaceEntry name value entries).map (fun m => (m.1, f m.2)) =
      replaceEntry name (f value) (entries.map fun m => (m.1, f m.2)) := by
  induction entries with
  | nil => rfl
  | cons entry rest ih =>
    obtain ⟨key, former⟩ := entry
    rw [List.map_cons, replaceEntry, replaceEntry]
    by_cases hkey : key = name
    · rw [if_pos hkey, if_pos hkey, List.map_cons]
    · rw [if_neg hkey, if_neg hkey, List.map_cons, ih]

end Replacing

section Writing

theorem entries_set_of_get? {former : α} (h : r.get? name = some former) :
    (r.set name value).entries = replaceEntry name value r.entries := by
  have hthere : r.contains name = true := by simp [contains, h]
  simp only [set, hthere, if_true]

theorem entries_set_of_absent (h : r.get? name = none) :
    (r.set name value).entries = addEntry name value r.entries := by
  have hfresh : r.contains name = false := by simp [contains, h]
  simp only [set, hfresh, Bool.false_eq_true, if_false]

/-- Writing what is there already changes nothing. -/
theorem set_self (h : r.get? name = some value) : r.set name value = r := by
  have hsame : (r.set name value).entries = r.entries := by
    rw [entries_set_of_get? h, replaceEntry_self h]
  exact congrArg Record.mk hsame

/-- Of two writes under one name the latter counts. -/
theorem set_set (r : Record α) (name : String) (former value : α) :
    (r.set name former).set name value = r.set name value := by
  have hthere : (r.set name former).get? name = some former := by
    rw [get?_set, if_pos rfl]
  have hsame : ((r.set name former).set name value).entries = (r.set name value).entries := by
    rw [entries_set_of_get? hthere]
    cases h : r.get? name with
    | none => rw [entries_set_of_absent h, entries_set_of_absent h, replaceEntry_addEntry h]
    | some => rw [entries_set_of_get? h, entries_set_of_get? h, replaceEntry_replaceEntry]
  exact congrArg Record.mk hsame

/-- What is erased may have been written before. -/
theorem erase_set (r : Record α) (name : String) (value : α) :
    (r.set name value).erase name = r.erase name := by
  cases h : r.get? name with
  | none =>
    rw [erase_set_of_absent h]
    exact congrArg Record.mk (filter_of_absent h).symm
  | some former =>
    unfold erase
    rw [entries_set_of_get? h, filter_replaceEntry_ne]

/-- A member that is written what looks the same makes no difference to the look. -/
theorem map_set_of_eq {f : α → β} {former : α} (h : r.get? name = some former)
    (heq : f value = f former) : (r.set name value).map f = r.map f := by
  have hlook : (r.map f).get? name = some (f value) := by
    rw [get?_map, h, heq]
    rfl
  have hsame : ((r.set name value).map f).entries = (r.map f).entries := by
    rw [map, entries_set_of_get? h, map_entries_replaceEntry]
    exact replaceEntry_self hlook
  exact congrArg Record.mk hsame

theorem mem_keys_iff_contains : name ∈ r.keys ↔ r.contains name = true := by
  have hnone := lookupIn_eq_none_iff name r.entries
  unfold contains get? keys
  rw [Option.isSome_iff_ne_none, Ne, hnone, not_not]

end Writing

/-- Where names are distinct, every member is found. -/
theorem get?_of_mem (hdistinct : r.Distinct) (h : (name, value) ∈ r.entries) :
    r.get? name = some value := by
  have hsome : ¬ r.get? name = none := by
    unfold get?
    rw [lookupIn_eq_none_iff, not_not]
    exact List.mem_map.mpr ⟨_, h, rfl⟩
  obtain ⟨found, hfound⟩ := Option.ne_none_iff_exists'.mp hsome
  have hsame : (name, found) = (name, value) :=
    List.inj_on_of_nodup_map hdistinct (mem_of_get? hfound) h rfl
  rw [hfound, (Prod.mk.inj hsame).2]

section Making

/-- A record holds what came last of the members that it was made of. -/
theorem get?_ofList (members : List (String × α)) (name : String) :
    (ofList members).get? name = lookupIn name members.reverse := by
  induction members using List.reverseRecOn with
  | nil => rfl
  | append_singleton members last ih =>
    have hlast : ofList (members ++ [last]) = (ofList members).set last.1 last.2 := by
      unfold ofList
      rw [List.foldl_concat]
    rw [hlast, get?_set, ih, List.reverse_concat, lookupIn]
    by_cases hname : name = last.1
    · rw [if_pos hname, if_pos hname.symm]
    · rw [if_neg hname, if_neg (Ne.symm hname)]

/-- A member of a record is among those that it was made of. -/
theorem mem_of_get?_ofList (h : (ofList members).get? name = some value) :
    (name, value) ∈ members := by
  rw [get?_ofList] at h
  exact List.mem_reverse.mp (mem_of_get? (r := ⟨members.reverse⟩) h)

/-- What a record is made of is found in it. -/
theorem isSome_get?_ofList (h : (name, value) ∈ members) :
    ((ofList members).get? name).isSome = true := by
  rw [get?_ofList, Option.isSome_iff_ne_none, Ne, lookupIn_eq_none_iff, not_not]
  exact List.mem_map.mpr ⟨_, List.mem_reverse.mpr h, rfl⟩

/-- Where the names are distinct nothing is lost. -/
theorem get?_ofList_eq_some_iff (hdistinct : (members.map (·.1)).Nodup) :
    (ofList members).get? name = some value ↔ (name, value) ∈ members := by
  refine ⟨mem_of_get?_ofList, fun h => ?_⟩
  obtain ⟨found, hfound⟩ := Option.isSome_iff_exists.mp (isSome_get?_ofList h)
  have hsame : (name, found) = (name, value) :=
    List.inj_on_of_nodup_map hdistinct (mem_of_get?_ofList hfound) h rfl
  rw [hfound, (Prod.mk.inj hsame).2]

/-- Members of distinct names are all there is in a record that is made of them. -/
theorem perm_entries_ofList (hdistinct : (members.map (·.1)).Nodup) :
    (ofList members).entries.Perm members := by
  induction members using List.reverseRecOn with
  | nil => exact .refl _
  | append_singleton members last ih =>
    rw [List.map_append, List.nodup_append] at hdistinct
    obtain ⟨hothers, -, hlast⟩ := hdistinct
    have hlater : ofList (members ++ [last]) = (ofList members).set last.1 last.2 := by
      unfold ofList
      rw [List.foldl_concat]
    have hnew : (ofList members).get? last.1 = none := by
      cases h : (ofList members).get? last.1 with
      | none => rfl
      | some value =>
        have hmember : last.1 ∈ members.map (·.1) :=
          List.mem_map.mpr ⟨_, mem_of_get?_ofList h, rfl⟩
        exact absurd rfl (hlast _ hmember _ List.mem_cons_self)
    rw [hlater, entries_set_of_absent hnew]
    refine (perm_addEntry _ _ _).trans (((ih hothers).cons _).trans ?_)
    exact (List.perm_append_singleton _ _).symm

end Making

section Preserving

variable {entry : String × α}

theorem mem_replaceEntry {entries : List (String × α)}
    (h : entry ∈ replaceEntry name value entries) : entry = (name, value) ∨ entry ∈ entries := by
  induction entries with
  | nil => cases h
  | cons first rest ih =>
    obtain ⟨key, old⟩ := first
    unfold replaceEntry at h
    split at h
    · rename_i hkey
      rcases List.mem_cons.mp h with heq | hrest
      · exact .inl (hkey ▸ heq)
      · exact .inr (List.mem_cons_of_mem _ hrest)
    · rcases List.mem_cons.mp h with heq | hrest
      · exact .inr (heq ▸ List.mem_cons_self)
      · exact (ih hrest).imp_right (List.mem_cons_of_mem _)

theorem mem_addEntry {entries : List (String × α)} (h : entry ∈ addEntry name value entries) :
    entry = (name, value) ∨ entry ∈ entries := by
  induction entries with
  | nil => exact .inl (List.mem_singleton.mp h)
  | cons first rest ih =>
    unfold addEntry at h
    split at h
    · exact List.mem_cons.mp h
    · rcases List.mem_cons.mp h with heq | hrest
      · exact .inr (heq ▸ List.mem_cons_self)
      · exact (ih hrest).imp_right (List.mem_cons_of_mem _)

theorem mem_set (h : entry ∈ (r.set name value).entries) :
    entry = (name, value) ∨ entry ∈ r.entries := by
  unfold set at h
  dsimp only at h
  split at h
  · exact mem_replaceEntry h
  · exact mem_addEntry h

theorem mem_ofList {members : List (String × α)} (h : entry ∈ (ofList members).entries) :
    entry ∈ members := by
  have hfrom : ∀ (members : List (String × α)) (r : Record α),
      entry ∈ (members.foldl (fun r m => r.set m.1 m.2) r).entries →
        entry ∈ members ∨ entry ∈ r.entries := by
    intro members
    induction members with
    | nil => exact fun r hr => .inr hr
    | cons first rest ih =>
      intro r hr
      rcases ih _ hr with hrest | hset
      · exact .inl (List.mem_cons_of_mem _ hrest)
      · rcases mem_set hset with heq | hold
        · exact .inl (heq ▸ List.mem_cons_self)
        · exact .inr hold
  exact (hfrom members empty h).resolve_right List.not_mem_nil

/-- Every member of a record is as claimed. -/
def All (P : α → Prop) (r : Record α) : Prop := ∀ entry ∈ r.entries, P entry.2

instance (P : α → Prop) [DecidablePred P] (r : Record α) : Decidable (r.All P) :=
  inferInstanceAs (Decidable (∀ entry ∈ r.entries, P entry.2))

variable {P : α → Prop}

theorem all_empty : (∅ : Record α).All P := fun _ hentry => (List.not_mem_nil hentry).elim

theorem All.set (h : r.All P) (hvalue : P value) (name : String) : (r.set name value).All P := by
  intro entry hentry
  rcases mem_set hentry with rfl | hold
  · exact hvalue
  · exact h entry hold

theorem all_ofList (h : ∀ m ∈ members, P m.2) : (ofList members).All P := by
  unfold ofList
  induction members using List.reverseRecOn with
  | nil => exact all_empty
  | append_singleton earlier last ih =>
    rw [List.foldl_concat]
    have hearlier := ih fun m hm => h m (List.mem_append_left _ hm)
    exact hearlier.set (h last (List.mem_append_right _ (List.mem_singleton_self last))) last.1

theorem All.erase (h : r.All P) (name : String) : (r.erase name).All P :=
  fun entry hentry => h entry (List.mem_of_mem_filter hentry)

theorem All.get? (h : r.All P) (hvalue : r.get? name = some value) : P value :=
  h _ (mem_of_get? hvalue)

theorem All.assign {P : Value → Prop} {r : Record Value} {value : Value} (h : r.All P)
    (hvalue : P value) (hbase : P (.fallback value)) (name : String) :
    (r.assign name value).All P := by
  unfold Record.assign
  split
  · split
    · exact h.set hbase name
    · exact h
  · exact h.set hvalue name

theorem All.drop {P : Value → Prop} {r : Record Value} (h : r.All P) (name : String) :
    (r.drop name).All P := by
  unfold Record.drop
  split
  · exact h
  · exact h.erase name

theorem All.imp {Q : α → Prop} (h : r.All P) (himp : ∀ a, P a → Q a) : r.All Q :=
  fun entry hentry => himp _ (h entry hentry)

end Preserving

end Harbormaster.Record
