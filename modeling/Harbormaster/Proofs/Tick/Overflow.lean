import Mathlib.Data.List.Chain
import Harbormaster.Proofs.Tick.Requests

/-!
What a tick tells of a chain that got too deep. The place of a rule in the queue carries
the rules that lead to it: they have had their turn, each below the one before it, so no
rule is among them twice and none that still waits. An overflow is raised by the last of
them, in whose draft it stands, and from then on no rule asks for another one. That a
chain overflows at all is nowhere claimed.
-/

namespace Harbormaster

/-- A chain of rules that had their turn: the first one was asked for by no rule, and each
further one by the rule before it. -/
structure Descends (visited : List (String × Value)) (chain : List String) : Prop where
  first : ∀ id ∈ chain.head?, (id, Value.absent) ∈ visited
  links : chain.IsChain fun former later => (later, Value.text former) ∈ visited

namespace Descends

variable {visited visited' : List (String × Value)} {chain : List String} {id : String}

theorem nil : Descends visited [] := ⟨(fun _ h => nomatch h), .nil⟩

theorem mono (h : Descends visited chain) (hsubset : visited ⊆ visited') :
    Descends visited' chain :=
  ⟨fun id hid => hsubset (h.first id hid), h.links.imp fun _ _ hlink => hsubset hlink⟩

/-- A chain goes on with a rule that was asked for by its last one. -/
theorem concat (h : Descends visited chain) (hid : (id, .ofText? chain.getLast?) ∈ visited) :
    Descends visited (chain ++ [id]) := by
  cases hlast : chain.getLast? with
  | none =>
    rw [hlast] at hid
    rw [List.getLast?_eq_none_iff.mp hlast]
    refine ⟨?_, .singleton id⟩
    rintro _ ⟨⟩
    exact hid
  | some last =>
    rw [hlast] at hid
    constructor
    · intro first hfirst
      rw [List.head?_append_of_ne_nil] at hfirst
      · exact h.first first hfirst
      · rintro rfl
        cases hlast
    · rw [List.isChain_append]
      refine ⟨h.links, .singleton id, ?_⟩
      intro former hformer later hlater
      rw [hlast] at hformer
      cases hformer
      cases hlater
      exact hid

end Descends

namespace Tick

variable {r : TickRules} {rules waiting : List Rule} {source entry : QueueEntry} {rule : Rule}
  {t t' : Tick} {queue rest scheduled : List QueueEntry} {limit : Nat} {ancestors : List String}
  {overflow : ChainOverflow}

structure Placed (limit : Nat) (t : Tick) (entry : QueueEntry) (ancestors : List String) :
    Prop where
  chain : entry.chain = ancestors ++ [entry.ruleId]
  depth : ancestors.length = entry.depth
  fits : entry.depth ≤ limit
  source : ancestors.getLast? = entry.triggeredBy
  distinct : ancestors.Nodup
  evaluated : ancestors ⊆ t.evaluated
  descends : Descends t.visited ancestors

namespace Placed

theorem mono (h : Placed limit t entry ancestors) (hevaluated : t.evaluated ⊆ t'.evaluated)
    (hvisited : t.visited ⊆ t'.visited) : Placed limit t' entry ancestors :=
  ⟨h.chain, h.depth, h.fits, h.source, h.distinct,
    fun _ hid => hevaluated (h.evaluated hid), h.descends.mono hvisited⟩

theorem base (limit : Nat) (t : Tick) (rule : Rule) : Placed limit t (.base rule) [] :=
  ⟨rfl, rfl, Nat.zero_le limit, rfl, .nil, List.nil_subset _, .nil⟩

/-- Once the rule of a place has had its turn, it leads on with those that led to it. -/
theorem turned {d : Draft} (h : Placed limit t source ancestors)
    (hd : Attends r waiting source rule t t' scheduled d) (hsource : source.ruleId = rule.id)
    (hnew : rule.id ∉ t.evaluated) :
    source.chain.Nodup ∧ source.chain ⊆ t'.evaluated ∧ Descends t'.visited source.chain := by
  have hevaluated := hd.evaluated
  have hvisited := hd.visited hsource
  have hlater : Placed limit t' source ancestors :=
    h.mono (by simp [hevaluated]) (by simp [hvisited])
  rw [h.chain, hsource]
  refine ⟨?_, ?_, ?_⟩
  · refine List.nodup_append.mpr ⟨h.distinct, List.nodup_singleton _, ?_⟩
    rintro id hid _ hother rfl
    rw [List.mem_singleton.mp hother] at hid
    exact hnew (h.evaluated hid)
  · rw [hevaluated]
    exact List.append_subset.mpr ⟨fun id hid => List.mem_append_left _ (h.evaluated hid), by simp⟩
  · apply hlater.descends.concat
    rw [h.source, hvisited, ← hsource]
    exact List.mem_append_right _ (List.mem_singleton.mpr rfl)

end Placed

def AllPlaced (limit : Nat) (t : Tick) (queue : List QueueEntry) : Prop :=
  ∀ entry ∈ queue, ∃ ancestors, Placed limit t entry ancestors

/-- What a halted tick tells of the overflow: where it came to, and who raised it. After
the rule that raised it no rule was asked for or asked for another one. -/
structure TellsOf (limit : Nat) (t : Tick) (overflow : ChainOverflow) : Prop where
  distinct : overflow.chain.Nodup
  length : overflow.chain.length = limit + 2
  descends : Descends t.visited overflow.chain.dropLast
  ends : overflow.chain.getLast? = some overflow.ruleId ∧
    overflow.chain.dropLast.getLast? = some overflow.triggeredBy
  depth : overflow.depth = .ofNat (limit + 1) ∧ overflow.limit = .ofNat limit
  raised : ∃ former carrier later, t.drafts = former ++ carrier :: later ∧
    carrier.rule.id = overflow.triggeredBy ∧ carrier.overflows = true ∧
    (∀ d ∈ former ++ later, d.overflows = false) ∧
    ∀ d ∈ later, d.triggeredBy = .absent ∧ d.triggeredRules = []

/-- A tick whose drafts tell of an overflow exactly where chaining was halted, with the
places that are left. -/
def Tells (limit : Nat) (t : Tick) (queue : List QueueEntry) : Prop :=
  match t.overflow with
  | none => ∀ d ∈ t.drafts, d.overflows = false
  | some overflow => TellsOf limit t overflow ∧ ∀ entry ∈ queue, entry.triggeredBy = none

theorem TellsOf.map (h : TellsOf limit t overflow) {g : Draft → Draft} (hg : Draft.AddsNotes g)
    (hdrafts : t'.drafts = t.drafts.map g) : TellsOf limit t' overflow := by
  have hnotes := hg.annotates
  obtain ⟨former, carrier, later, hsplit, hcarrier, htells, hothers, hlater⟩ := h.raised
  refine ⟨h.distinct, h.length, ?_, h.ends, h.depth, former.map g, g carrier, later.map g,
    ?_, ?_, ?_, ?_, ?_⟩
  · rw [visited_of_annotates hnotes hdrafts]
    exact h.descends
  · rw [hdrafts, hsplit, List.map_append, List.map_cons]
  · rw [hnotes.rule, hcarrier]
  · rw [hnotes.overflows, htells]
  · rw [← List.map_append]
    intro _ hmember
    obtain ⟨d, hd, rfl⟩ := List.mem_map.mp hmember
    rw [hnotes.overflows, hothers d hd]
  · intro _ hmember
    obtain ⟨d, hd, rfl⟩ := List.mem_map.mp hmember
    rw [hnotes.triggeredBy, hnotes.triggeredRules]
    exact hlater d hd

/-- A rule that nothing asked for, and that asks for nothing, has its turn in a halted tick. -/
theorem TellsOf.concat (h : TellsOf limit t overflow) {d : Draft}
    (hdrafts : t'.drafts = t.drafts ++ [d]) (hquiet : d.overflows = false)
    (hunasked : d.triggeredBy = .absent) (hasks : d.triggeredRules = []) :
    TellsOf limit t' overflow := by
  obtain ⟨former, carrier, later, hsplit, hcarrier, htells, hothers, hlater⟩ := h.raised
  refine ⟨h.distinct, h.length, ?_, h.ends, h.depth, former, carrier, later ++ [d], ?_, hcarrier,
    htells, ?_, ?_⟩
  · refine h.descends.mono ?_
    unfold visited
    rw [hdrafts, List.map_append]
    exact List.subset_append_left _ _
  · rw [hdrafts, hsplit, List.append_assoc, List.cons_append]
  · intro other hother
    rw [← List.append_assoc] at hother
    rcases List.mem_append.mp hother with hformer | hlast
    · exact hothers other hformer
    · rw [List.mem_singleton.mp hlast, hquiet]
  · intro other hother
    rcases List.mem_append.mp hother with hformer | hlast
    · exact hlater other hformer
    · rw [List.mem_singleton.mp hlast]
      exact ⟨hunasked, hasks⟩

/-- The overflow that is raised in a turn is told as it came about. -/
theorem Attends.tellsOf {d : Draft} (h : Attends r waiting source rule t t' scheduled d)
    (hsource : source.ruleId = rule.id) (hplaced : Placed r.maxChainDepth t source ancestors)
    (hnew : rule.id ∉ t.evaluated)
    (hwaits : ∀ id ∈ waiting.map (·.id), id ∉ t'.evaluated)
    (hexceeds : Exceeds r.maxChainDepth waiting source overflow) (htells : d.overflows = true)
    (hquiet : ∀ d ∈ t.drafts, d.overflows = false) : TellsOf r.maxChainDepth t' overflow := by
  obtain ⟨hdistinct, hchain, hdescends⟩ := hplaced.turned h hsource hnew
  obtain ⟨g, hg, hdrafts⟩ := h.drafts
  have hlength : source.chain.length = source.depth + 1 := by
    rw [hplaced.chain, List.length_append, hplaced.depth, List.length_singleton]
  have hdeepest : source.depth = r.maxChainDepth := by
    have hfits := hplaced.fits
    have hdeep := hexceeds.deep
    omega
  have hfresh := hwaits _ hexceeds.waits
  refine ⟨?_, ?_, ?_, ⟨?_, ?_⟩, ⟨?_, hexceeds.limit⟩, t.drafts.map g, d, [], hdrafts, ?_, htells,
    ?_, fun _ hlater => nomatch hlater⟩
  · rw [hexceeds.chain]
    refine List.nodup_append.mpr ⟨hdistinct, List.nodup_singleton _, ?_⟩
    rintro id hid _ hother rfl
    rw [List.mem_singleton.mp hother] at hid
    exact hfresh (hchain hid)
  · rw [hexceeds.chain, List.length_append, hlength, hdeepest, List.length_singleton]
  · rw [hexceeds.chain, List.dropLast_concat]
    exact hdescends
  · rw [hexceeds.chain, List.getLast?_concat]
  · rw [hexceeds.chain, List.dropLast_concat, hplaced.chain, List.getLast?_concat,
      hexceeds.triggeredBy]
  · rw [hexceeds.depth, hdeepest]
  · rw [h.own, hexceeds.triggeredBy, hsource]
  · rw [List.append_nil]
    intro _ hmember
    obtain ⟨former, hformer, rfl⟩ := List.mem_map.mp hmember
    rw [hg.annotates.overflows, hquiet former hformer]

/-- In a halted tick a rule has its turn at its own place and asks for no other one. -/
theorem Attends.concat {d : Draft} (h : Attends r waiting source rule t t' scheduled d)
    (htells : TellsOf limit t overflow) (hhalted : t.overflow = some overflow)
    (hunasked : source.triggeredBy = none) :
    t'.overflow = some overflow ∧ scheduled = [] ∧ TellsOf limit t' overflow := by
  obtain ⟨g, hg, hdrafts⟩ := h.drafts
  have hnone : scheduled = [] := by
    apply List.eq_nil_iff_forall_not_mem.mpr
    intro entry hentry
    have hopen := (h.accepted entry hentry).2.2.2
    rw [hhalted] at hopen
    cases hopen
  have hcourse := h.halts
  rw [hhalted] at hcourse
  generalize hafter : t'.overflow = after at hcourse
  generalize hquiet : d.overflows = told at hcourse
  cases hcourse with
  | once hopen => cases hopen
  | never =>
    refine ⟨rfl, hnone, ?_⟩
    have hnoted : TellsOf limit { t with drafts := t.drafts.map g } overflow := htells.map hg rfl
    refine hnoted.concat hdrafts hquiet ?_ ?_
    · rw [h.triggeredBy, hunasked]
      rfl
    · rw [h.triggeredRules, hnone]
      rfl

theorem AllPlaced.skip (h : AllPlaced limit t (entry :: rest)) :
    AllPlaced limit (t.noteIgnored entry) rest := by
  intro other hother
  obtain ⟨ancestors, hplaced⟩ := h other (List.mem_cons_of_mem _ hother)
  refine ⟨ancestors, hplaced.mono ?_ ?_⟩
  · rw [evaluated_noteIgnored]
    exact List.Subset.refl _
  · rw [visited_noteIgnored]
    exact List.Subset.refl _

theorem Tells.skip (h : Tells limit t (entry :: rest)) :
    Tells limit (t.noteIgnored entry) rest := by
  obtain ⟨g, hg, heq⟩ := t.noteIgnored_addsNotes entry
  rw [heq]
  unfold Tells at h ⊢
  dsimp only
  split at h
  · intro _ hmember
    obtain ⟨d, hd, rfl⟩ := List.mem_map.mp hmember
    rw [hg.annotates.overflows, h d hd]
  · exact ⟨h.1.map hg rfl, fun other hother => h.2 other (List.mem_cons_of_mem _ hother)⟩

/-- The places that are left after a turn are places that were there or lie below the rule. -/
theorem AllPlaced.turn {d : Draft} (h : AllPlaced r.maxChainDepth t (source :: rest))
    (hd : Attends r waiting source rule t t' scheduled d) (hsource : source.ruleId = rule.id)
    (hnew : rule.id ∉ t.evaluated) :
    AllPlaced r.maxChainDepth t' (t'.queueAfter scheduled rest) := by
  have hkept : AllPlaced r.maxChainDepth t' rest := by
    intro entry hentry
    obtain ⟨ancestors, hplaced⟩ := h entry (List.mem_cons_of_mem _ hentry)
    exact ⟨ancestors, hplaced.mono (by simp [hd.evaluated]) (by simp [hd.visited hsource])⟩
  obtain ⟨ancestors, hplaced⟩ := h source List.mem_cons_self
  obtain ⟨hdistinct, hchain, hdescends⟩ := hplaced.turned hd hsource hnew
  intro entry hentry
  rcases mem_of_queueAfter hentry with hscheduled | hrest
  · obtain ⟨heq, -, hfits, -⟩ := hd.accepted entry hscheduled
    rw [heq]
    refine ⟨source.chain, rfl, ?_, hfits, ?_, hdistinct, hchain, hdescends⟩
    · rw [hplaced.chain, List.length_append, hplaced.depth]
      rfl
    · rw [hplaced.chain, List.getLast?_concat]
      rfl
  · exact hkept entry hrest

/-- A turn halts chaining at most once, and only chaining that goes on. -/
theorem Tells.turn {d : Draft} (h : Tells r.maxChainDepth t (source :: rest))
    (hd : Attends r waiting source rule t t' scheduled d) (hsource : source.ruleId = rule.id)
    (hplaced : Placed r.maxChainDepth t source ancestors) (hnew : rule.id ∉ t.evaluated)
    (hwaits : ∀ id ∈ waiting.map (·.id), id ∉ t'.evaluated) :
    Tells r.maxChainDepth t' (t'.queueAfter scheduled rest) := by
  unfold Tells at h
  split at h
  · rename_i hopen
    obtain ⟨g, hg, hdrafts⟩ := hd.drafts
    have hcourse := hd.halts
    rw [hopen] at hcourse
    generalize hafter : t'.overflow = after at hcourse
    generalize htold : d.overflows = told at hcourse
    unfold Tells
    rw [hafter]
    cases hcourse with
    | never =>
      intro _ hmember
      rw [hdrafts] at hmember
      rcases List.mem_append.mp hmember with hformer | hlast
      · obtain ⟨former, hbefore, rfl⟩ := List.mem_map.mp hformer
        rw [hg.annotates.overflows, h former hbefore]
      · rw [List.mem_singleton.mp hlast, htold]
    | once _ hexceeds =>
      refine ⟨hd.tellsOf hsource hplaced hnew hwaits hexceeds htold h, ?_⟩
      intro entry hentry
      exact (mem_of_queueAfter_of_halted (by simp [halted, hafter]) hentry).2
  · rename_i overflow hhalted
    obtain ⟨hafter, hnone, htells⟩ := hd.concat h.1 hhalted (h.2 source List.mem_cons_self)
    unfold Tells
    rw [hafter]
    refine ⟨htells, ?_⟩
    intro entry hentry
    exact (mem_of_queueAfter_of_halted (by simp [halted, hafter]) hentry).2

/-- A tick that begins without drafts tells of an overflow exactly where one halts it. -/
theorem tells_drain (hdistinct : (rules.map (·.id)).Nodup) (hfresh : t.drafts = [])
    (hopen : t.overflow = none) :
    Tells r.maxChainDepth (drain r rules (rules.map QueueEntry.base) t) [] := by
  have hend : AllPlaced r.maxChainDepth (drain r rules (rules.map QueueEntry.base) t) [] ∧
      Tells r.maxChainDepth (drain r rules (rules.map QueueEntry.base) t) [] := by
    refine drain_attends (P := fun queue t => AllPlaced r.maxChainDepth t queue ∧
      Tells r.maxChainDepth t queue) hdistinct hfresh ?_ ?_ ⟨?_, ?_⟩
    · rintro entry rest t ⟨hplaced, htells⟩
      exact ⟨hplaced.skip, htells.skip⟩
    · rintro waiting source rest rule t t' scheduled d hd - hsource hnew hwaits
        ⟨hallPlaced, htells⟩
      obtain ⟨ancestors, hplaced⟩ := hallPlaced source List.mem_cons_self
      exact ⟨hallPlaced.turn hd hsource hnew, htells.turn hd hsource hplaced hnew hwaits⟩
    · intro entry hentry
      obtain ⟨rule, -, rfl⟩ := List.mem_map.mp hentry
      exact ⟨[], .base _ t rule⟩
    · unfold Tells
      rw [hopen, hfresh]
      exact fun _ hd => (List.not_mem_nil hd).elim
  exact hend.2

end Tick

end Harbormaster
