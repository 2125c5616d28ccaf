import Harbormaster.Proofs.Conflict.Holder
import Harbormaster.Proofs.Conflict.Merges
import Harbormaster.Proofs.Conflict.Records
import Harbormaster.Proofs.Number.Order
import Harbormaster.Proofs.World.Taken

/-!
Whom a cell is left to. A conflict compares the incoming write with the holder of the cell
and with nobody else; over all the writes of a cell this comes to the first of those of
the highest priority, or to the last one, by the strategy. It is shown one write at a time
and for the world as for the ledger. Writes of other cells may come in between. Strategies
that give the cell to no single write are left out.
-/

namespace Harbormaster

namespace WriteRequest

/-- The writes of a cell among others. -/
def on (path : String) (requests : List WriteRequest) : List WriteRequest :=
  requests.filter (·.path = path)

/-- The first of the writes of highest priority: those before it rank lower, and those
after it no higher. -/
def FirstOfHighest (requests : List WriteRequest) (winner : WriteRequest) : Prop :=
  ∃ former later, requests = former ++ winner :: later ∧
    (∀ r ∈ former, r.priority.lt winner.priority = true) ∧
    ∀ r ∈ later, winner.priority.lt r.priority = false

def Ranked (r : WriteRequest) : Prop := ∃ n : Number, r.priority = .number n ∧ n.isFinite = true

variable {requests : List WriteRequest} {winner request : WriteRequest}

theorem FirstOfHighest.mem (h : FirstOfHighest requests winner) : winner ∈ requests := by
  obtain ⟨former, later, rfl, -, -⟩ := h
  exact List.mem_append_right former List.mem_cons_self

/-- There is no second one of them. -/
theorem FirstOfHighest.unique {other : WriteRequest} (h : FirstOfHighest requests winner)
    (hother : FirstOfHighest requests other) : winner = other := by
  obtain ⟨former, later, rfl, hformer, hlater⟩ := h
  obtain ⟨before, after, heq, hbefore, hafter⟩ := hother
  -- whoever comes first of the two would be outranked and not outranked by the other one
  rcases List.append_eq_append_iff.mp heq with ⟨between, rfl, hrest⟩ | ⟨between, rfl, hrest⟩
  · cases between with
    | nil => exact (List.cons.inj hrest).1
    | cons first rest =>
      obtain ⟨rfl, rfl⟩ := List.cons.inj hrest
      have habove := hbefore winner (by simp)
      rw [hlater other (by simp)] at habove
      cases habove
  · cases between with
    | nil => exact (List.cons.inj hrest).1.symm
    | cons first rest =>
      obtain ⟨rfl, rfl⟩ := List.cons.inj hrest
      have habove := hformer other (by simp)
      rw [hafter winner (by simp)] at habove
      cases habove

/-- Nobody is above the winner. -/
theorem FirstOfHighest.not_above (hranked : ∀ r ∈ requests, r.Ranked)
    (h : FirstOfHighest requests winner) :
    ∀ r ∈ requests, winner.priority.lt r.priority = false := by
  obtain ⟨n, hn, -⟩ := hranked winner h.mem
  obtain ⟨former, later, rfl, hformer, hlater⟩ := h
  intro r hr
  obtain ⟨m, hm, -⟩ := hranked r hr
  rcases List.mem_append.mp hr with hbefore | hrest
  · have hbelow := hformer r hbefore
    have hasymm := m.lt_asymm n
    rw [hm, hn, Value.lt_number] at hbelow
    rw [hbelow] at hasymm
    rw [hm, hn, Value.lt_number]
    simpa using hasymm
  · rcases List.mem_cons.mp hrest with rfl | hafter
    · exact Value.lt_irrefl _
    · exact hlater r hafter

/-- A write that ranks higher takes over from all those before it. -/
theorem FirstOfHighest.taken (hranked : ∀ r ∈ requests, r.Ranked) (hrequest : request.Ranked)
    (h : FirstOfHighest requests winner)
    (habove : winner.priority.lt request.priority = true) :
    FirstOfHighest (requests ++ [request]) request := by
  refine ⟨requests, [], rfl, fun r hr => ?_, fun _ hr => (List.not_mem_nil hr).elim⟩
  have hnot := h.not_above hranked r hr
  obtain ⟨m, hm, hfinite⟩ := hranked r hr
  obtain ⟨n, hn, -⟩ := hranked winner h.mem
  obtain ⟨k, hk, -⟩ := hrequest
  rw [hn, hm, Value.lt_number] at hnot
  rw [hn, hk, Value.lt_number] at habove
  rw [hm, hk, Value.lt_number]
  have hnumber : m.isNaN = false := by
    cases m with
    | finite | infinite => rfl
    | notANumber => cases hfinite
  by_contra hbelow
  have hnone := Number.lt_eq_false_trans hnumber hnot (Bool.eq_false_iff.mpr hbelow)
  rw [habove] at hnone
  cases hnone

/-- A write that does not rank higher changes nothing. -/
theorem FirstOfHighest.kept (h : FirstOfHighest requests winner)
    (hnot : winner.priority.lt request.priority = false) :
    FirstOfHighest (requests ++ [request]) winner := by
  obtain ⟨former, later, rfl, hformer, hlater⟩ := h
  refine ⟨former, later ++ [request], by simp, hformer, fun r hr => ?_⟩
  rcases List.mem_append.mp hr with hold | hnew
  · exact hlater r hold
  · rw [List.mem_singleton.mp hnew]
    exact hnot

end WriteRequest

def Strategy.LeavesTo (requests : List WriteRequest) (winner : WriteRequest) : Strategy → Prop
  | .priority => WriteRequest.FirstOfHighest requests winner
  | .lastWriteWins => requests.getLast? = some winner
  | .merge | .manualReview => False

theorem Strategy.leavesTo_singleton {strategy : Strategy} (request : WriteRequest)
    (hstrategy : strategy = .priority ∨ strategy = .lastWriteWins) :
    strategy.LeavesTo [request] request := by
  rcases hstrategy with rfl | rfl
  · exact ⟨[], [], rfl, fun _ h => (List.not_mem_nil h).elim, fun _ h => (List.not_mem_nil h).elim⟩
  · rfl

structure Resolution.GoesTo (resolution : Resolution) (winner : WriteRequest) : Prop where
  value : resolution.value = winner.value
  holder : resolution.holder = some winner.ruleId
  holderPriority : resolution.holderPriority = winner.priority

/-- What is known of a cell that has been left to a write. -/
structure CellEntry.LeftTo (entry : CellEntry) (winner : WriteRequest) : Prop where
  value : entry.value = winner.value
  holder : entry.holder = some winner.ruleId
  holderPriority : entry.holderPriority = winner.priority

namespace Resolution

variable {entry : CellEntry} {request winner : WriteRequest} {strategy : Strategy}

theorem goesTo_win : (win request strategy).GoesTo request := ⟨rfl, rfl, rfl⟩

theorem goesTo_keep (h : entry.LeftTo winner) : (keep entry strategy).GoesTo winner :=
  ⟨h.value, h.holder, h.holderPriority⟩

theorem goesTo_ofJudgement {j : Judgement}
    (h : (ofVerdict j.strategy entry request j.verdict).GoesTo winner) :
    (ofJudgement entry request j).GoesTo winner := by
  unfold ofJudgement
  cases j.obstacle with
  | none => exact h
  | some => exact ⟨h.value, h.holder, h.holderPriority⟩

/-- A conflict that is recorded under one of these strategies was judged by it. -/
theorem strategy_of_ofJudgement {j : Judgement}
    (hstrategy : strategy = .priority ∨ strategy = .lastWriteWins)
    (h : (ofJudgement entry request j).strategy = strategy) : j.strategy = strategy := by
  have hverdict : (ofVerdict j.strategy entry request j.verdict).strategy = strategy := by
    unfold ofJudgement at h
    cases hobstacle : j.obstacle with
    | none | some =>
      rw [hobstacle] at h
      exact h
  cases hj : j.verdict with
  | taken | kept =>
    rw [hj] at hverdict
    exact hverdict
  | merged | reverted =>
    rw [hj] at hverdict
    rcases hstrategy with rfl | rfl <;> cases hverdict

end Resolution

/-- What is judged by priority goes to the incoming write or stays, in place of a merge or
not. -/
theorem Strategy.verdict_of_priority {strategy : Strategy} {entry : CellEntry}
    {request : WriteRequest} (h : (strategy.judge entry request).strategy = .priority) :
    (strategy.judge entry request).verdict = .byPriority entry request := by
  cases strategy with
  | priority => rfl
  | lastWriteWins | manualReview => cases h
  | merge =>
    unfold judge at h ⊢
    dsimp only at h ⊢
    split
    · rename_i hmerge
      rw [hmerge] at h
      cases h
    · rfl

theorem Strategy.verdict_of_lastWriteWins {strategy : Strategy} {entry : CellEntry}
    {request : WriteRequest} (h : (strategy.judge entry request).strategy = .lastWriteWins) :
    (strategy.judge entry request).verdict = .taken := by
  cases strategy with
  | lastWriteWins => rfl
  | priority | manualReview => cases h
  | merge =>
    unfold judge at h
    dsimp only at h
    split at h <;> cases h

namespace Ledger

variable {l l' : Ledger} {w w' : World} {path : String} {strategy : Strategy}
  {done : List WriteRequest} {request winner : WriteRequest} {entry : CellEntry}
  {outcome : Except Failure WriteOutcome}

/-- A conflict leaves the cell to the same write that the strategy would pick from all of
them. -/
theorem leavesTo_resolution (hstrategy : strategy = .priority ∨ strategy = .lastWriteWins)
    (hranked : ∀ r ∈ done, r.Ranked) (hrequest : request.Ranked)
    (hpicked : strategy.LeavesTo done winner) (hleft : entry.LeftTo winner)
    (hsettled : (l.resolution entry request).strategy = strategy) :
    ∃ next, strategy.LeavesTo (done ++ [request]) next ∧
      (l.resolution entry request).GoesTo next := by
  have hjudged := Resolution.strategy_of_ofJudgement hstrategy hsettled
  rcases hstrategy with rfl | rfl
  · have hverdict := Strategy.verdict_of_priority hjudged
    unfold Verdict.byPriority at hverdict
    rw [hleft.holderPriority] at hverdict
    cases habove : winner.priority.lt request.priority with
    | true =>
      refine ⟨request, hpicked.taken hranked hrequest habove, Resolution.goesTo_ofJudgement ?_⟩
      rw [hverdict, habove]
      exact Resolution.goesTo_win
    | false =>
      refine ⟨winner, hpicked.kept habove, Resolution.goesTo_ofJudgement ?_⟩
      rw [hverdict, habove]
      exact Resolution.goesTo_keep hleft
  · refine ⟨request, List.getLast?_concat, Resolution.goesTo_ofJudgement ?_⟩
    rw [Strategy.verdict_of_lastWriteWins hjudged]
    exact Resolution.goesTo_win

/-- What writes leave behind that all went through, the cell left to one of them: its value
in the world, and a record for each write after the first, the last of which names it. -/
structure LeftTo (l : Ledger) (w : World) (path : String) (done : List WriteRequest)
    (winner : WriteRequest) : Prop where
  peek : w.peek path = .ok winner.value
  records : (l.records.filter (·.path = path)).length + 1 = done.length
  kept : ∀ r, lastOn? l.records path = some r → r.result.keptRule = some winner.ruleId

inductive Stands (strategy : Strategy) (l : Ledger) (w : World) (path : String) :
    List WriteRequest → Prop where
  | untouched {base : Value} (hfresh : l.entries.get? path = none)
      (hpeek : w.peek path = .ok base) (hnone : l.records.filter (·.path = path) = []) :
      Stands strategy l w path []
  | left {done : List WriteRequest} {winner : WriteRequest} {entry : CellEntry}
      (hpicked : strategy.LeavesTo done winner) (hentry : l.entries.get? path = some entry)
      (hheld : entry.LeftTo winner) (hwriters : entry.ruleIds = done.map (·.ruleId))
      (hown : (w.own? path).isSome = true) (hleft : LeftTo l w path done winner) :
      Stands strategy l w path done

/-- A write of another cell leaves this one as it is. -/
theorem frame_of_end (hend : End l w request l' w' outcome) (hother : path ≠ request.path) :
    l'.entries.get? path = l.entries.get? path ∧ w.KeepsCell w' path ∧
      l'.records.filter (·.path = path) = l.records.filter (·.path = path) := by
  cases hend with
  | refused => exact ⟨rfl, .refl w path, rfl⟩
  | withheld => exact ⟨by rw [get?_put, if_neg hother], .refl w path, rfl⟩
  | opened _ _ hworld | updated _ _ hworld =>
    exact ⟨by rw [get?_put, if_neg hother], World.keepsCell_of_write hworld hother, rfl⟩
  | settled _ _ hworld =>
    refine ⟨?_, keepsCell_of_apply hworld hother, ?_⟩
    · exact (get?_put l request.path _ path).trans (if_neg hother)
    · have hpath : ¬ request.path = path := fun heq => hother heq.symm
      simp [settled, recordOf, hpath]

theorem Stands.elsewhere (h : Stands strategy l w path done)
    (hend : End l w request l' w' outcome) (hother : path ≠ request.path) :
    Stands strategy l' w' path done := by
  obtain ⟨hentry, hkeeps, hrecords⟩ := frame_of_end hend hother
  cases h with
  | untouched hfresh hbase hnone =>
    obtain ⟨now, hnow⟩ := hkeeps.there _ hbase
    exact .untouched (hentry.trans hfresh) hnow (hrecords.trans hnone)
  | left hpicked hknown hheld hwriters hown hleft =>
    refine .left hpicked (hentry.trans hknown) hheld hwriters (hkeeps.own.symm ▸ hown)
      ⟨(hkeeps.peek hown).trans hleft.peek, ?_, ?_⟩
    · rw [hrecords]
      exact hleft.records
    · unfold lastOn?
      rw [hrecords]
      exact hleft.kept

/-- The first write of a cell is no conflict. -/
theorem stands_first (hstrategy : strategy = .priority ∨ strategy = .lastWriteWins)
    {base : Value} (hpath : request.path = path) (hfresh : l.entries.get? path = none)
    (hpeek : w.peek path = .ok base) (hnone : l.records.filter (·.path = path) = [])
    (htakes : w.Takes path request.value) :
    Stands strategy (l.write w request).ledger (l.write w request).world path [request] ∧
      ∀ value, w.Takes path value → (l.write w request).world.Takes path value := by
  obtain ⟨world, hworld⟩ := htakes.written
  obtain ⟨hshown, hown⟩ := htakes.peek_of_write hworld
  have hwrite : l.write w request =
      ⟨l.put path (firstEntry base request), world, .ok ⟨request.value, none⟩, []⟩ := by
    simp [Ledger.write, hpath, hfresh, writeFirst, hpeek, hworld]
  have hentry : (l.put path (firstEntry base request)).entries.get? path =
      some (firstEntry base request) := by
    rw [get?_put, if_pos rfl]
  rw [hwrite]
  refine ⟨?_, fun value hvalue => hvalue.after_write htakes hworld⟩
  refine .left (Strategy.leavesTo_singleton request hstrategy) hentry ⟨rfl, rfl, rfl⟩ rfl hown
    ⟨hshown, congrArg (·.length + 1) hnone, ?_⟩
  intro r hr
  have hlast : (l.records.filter (·.path = path)).getLast? = some r := hr
  rw [hnone] at hlast
  cases hlast

theorem not_soleWriter (hwriters : entry.ruleIds = done.map (·.ruleId)) (hsome : done ≠ [])
    (hnew : request.ruleId ∉ done.map (·.ruleId)) : ¬ entry.SoleWriter request.ruleId := by
  intro hsole
  rw [CellEntry.soleWriter_iff, hwriters] at hsole
  obtain ⟨former, hformer⟩ := List.exists_mem_of_ne_nil done hsome
  have hid : former.ruleId ∈ done.map (·.ruleId) := List.mem_map_of_mem hformer
  exact hnew (hsole _ hid ▸ hid)

/-- Each further write is settled as a conflict, and the cell is left to whom the strategy
picks then. It takes what it took before. -/
theorem Stands.write (hstrategy : strategy = .priority ∨ strategy = .lastWriteWins)
    (h : Stands strategy l w request.path done) (hnew : request.ruleId ∉ done.map (·.ruleId))
    (hranked : ∀ r ∈ done ++ [request], r.Ranked)
    (htakes : ∀ r ∈ done ++ [request], w.Takes request.path r.value)
    (hsettled : ∀ entry, l.entries.get? request.path = some entry →
      ¬ entry.SoleWriter request.ruleId → (l.resolution entry request).strategy = strategy) :
    Stands strategy (l.write w request).ledger (l.write w request).world request.path
        (done ++ [request]) ∧
      ∀ value, w.Takes request.path value →
        (l.write w request).world.Takes request.path value := by
  cases h with
  | untouched hfresh hpeek hnone =>
    exact stands_first hstrategy rfl hfresh hpeek hnone (htakes request (by simp))
  | @left _ winner entry hpicked hentry hheld hwriters hown hleft =>
    have hsome : done ≠ [] := by
      rintro rfl
      exact absurd hleft.records (Nat.succ_ne_zero _)
    have hothers := not_soleWriter hwriters hsome hnew
    obtain ⟨next, hnext, hgoes⟩ := leavesTo_resolution hstrategy
      (fun r hr => hranked r (List.mem_append_left _ hr)) (hranked request (by simp)) hpicked hheld
      (hsettled entry hentry hothers)
    have hmember : next ∈ done ++ [request] := by
      rcases hstrategy with rfl | rfl
      · exact WriteRequest.FirstOfHighest.mem hnext
      · exact List.mem_of_getLast? hnext
    have hnextTakes := htakes next hmember
    obtain ⟨world, hwritten⟩ := hnextTakes.written
    obtain ⟨hshown, hownNext⟩ := hnextTakes.peek_of_write hwritten
    have happly : apply w request.path (l.resolution entry request).value = .ok world := by
      rw [hgoes.value, apply_of_hasForm hnextTakes.form]
      exact hwritten
    obtain ⟨hledger, hworld⟩ := write_of_others hentry hothers happly
    rw [hledger, hworld]
    have hput : (l.put request.path (settledEntry (entry.listing request)
        (l.resolution entry request))).entries.get? request.path =
          some (settledEntry (entry.listing request) (l.resolution entry request)) :=
      (get?_put l request.path _ request.path).trans (if_pos rfl)
    refine ⟨?_, fun value hvalue => hvalue.after_write hnextTakes hwritten⟩
    refine .left hnext hput ⟨hgoes.value, hgoes.holder, hgoes.holderPriority⟩ ?_ hownNext
      ⟨hshown, ?_, ?_⟩
    · have hlisted : (settledEntry (entry.listing request) (l.resolution entry request)).ruleIds =
          entry.ruleIds ++ [request.ruleId] := by
        simp [CellEntry.ruleIds, settledEntry, CellEntry.listing]
      rw [hlisted, hwriters, List.map_append, List.map_singleton]
    · have hcount := hleft.records
      simp [settled, recordOf]
      omega
    · intro r hr
      have hown : (l.recordOf request.path (entry.listing request)
          (l.resolution entry request)).path = request.path := rfl
      rw [settled, lastOn?_concat, if_pos hown] at hr
      cases hr
      exact hgoes.holder

/-- Writes one after the other. -/
def writeEach (l : Ledger) (w : World) : List WriteRequest → Ledger × World
  | [] => (l, w)
  | request :: rest => (l.write w request).ledger.writeEach (l.write w request).world rest

/-- Whether each conflict over a cell, in writes one after the other, is settled by one
strategy. -/
def SettlesBy (strategy : Strategy) (path : String) (l : Ledger) (w : World) :
    List WriteRequest → Prop
  | [] => True
  | request :: rest =>
    (request.path = path → ∀ entry, l.entries.get? path = some entry →
      ¬ entry.SoleWriter request.ruleId → (l.resolution entry request).strategy = strategy) ∧
    (l.write w request).ledger.SettlesBy strategy path (l.write w request).world rest

/-- Writes of a cell by different rules, with priorities to compare and values that the cell
takes in a world, so that it shows them when they have been written. -/
structure Competing (u : World) (path : String) (requests : List WriteRequest) : Prop where
  rules : (requests.map (·.ruleId)).Nodup
  ranked : ∀ r ∈ requests, r.Ranked
  accepted : ∀ r ∈ requests, r.value.hasForm = true ∧
    ∃ u', u.write path r.value = .ok u' ∧ u'.peek path = .ok r.value

theorem Competing.takes {u : World} {requests : List WriteRequest} (h : Competing u path requests) :
    ∀ r ∈ requests, u.Takes path r.value := by
  intro r hr
  obtain ⟨hform, u', hwrite, hpeek⟩ := h.accepted r hr
  exact World.takes_of_peek hform hwrite hpeek

/-- What has been shown for one write holds for any number of them. -/
theorem Stands.writeEach {requests : List WriteRequest}
    (hstrategy : strategy = .priority ∨ strategy = .lastWriteWins)
    (h : Stands strategy l w path done)
    (hrules : ((done ++ WriteRequest.on path requests).map (·.ruleId)).Nodup)
    (hranked : ∀ r ∈ done ++ WriteRequest.on path requests, r.Ranked)
    (htakes : ∀ r ∈ done ++ WriteRequest.on path requests, w.Takes path r.value)
    (hsettles : l.SettlesBy strategy path w requests) :
    Stands strategy (l.writeEach w requests).1 (l.writeEach w requests).2 path
      (done ++ WriteRequest.on path requests) := by
  induction requests generalizing l w done with
  | nil => simpa [WriteRequest.on, Ledger.writeEach] using h
  | cons request rest ih =>
    obtain ⟨hnow, hlater⟩ := hsettles
    by_cases hpath : request.path = path
    · subst hpath
      have hsplit : done ++ WriteRequest.on request.path (request :: rest) =
          (done ++ [request]) ++ WriteRequest.on request.path rest := by
        simp [WriteRequest.on]
      rw [hsplit] at hrules hranked htakes ⊢
      have hformer : ∀ r ∈ done ++ [request],
          r ∈ (done ++ [request]) ++ WriteRequest.on request.path rest :=
        fun r hr => List.mem_append_left _ hr
      have hnew : request.ruleId ∉ done.map (·.ruleId) := by
        rw [List.map_append, List.map_append] at hrules
        intro hold
        exact (List.nodup_append.mp hrules.of_append_left).2.2 _ hold _ (by simp) rfl
      obtain ⟨hnext, htaken⟩ := h.write hstrategy hnew (fun r hr => hranked r (hformer r hr))
        (fun r hr => htakes r (hformer r hr)) (hnow rfl)
      exact ih hnext hrules hranked (fun r hr => htaken _ (htakes r hr)) hlater
    · have hsplit : WriteRequest.on path (request :: rest) = WriteRequest.on path rest := by
        simp [WriteRequest.on, hpath]
      rw [hsplit] at hrules hranked htakes ⊢
      have hother : path ≠ request.path := fun heq => hpath heq.symm
      have hkeeps := (frame_of_end (end_write l w request) hother).2.1
      exact ih (h.elsewhere (end_write l w request) hother) hrules hranked
        (fun r hr => hkeeps.takes (htakes r hr)) hlater

variable {u : World} {requests : List WriteRequest} {policy : Policy} {tick : Value}

theorem leftTo_of_settles (hstrategy : strategy = .priority ∨ strategy = .lastWriteWins)
    (hsome : WriteRequest.on path requests ≠ [])
    (hcompeting : Competing w path (WriteRequest.on path requests))
    (hsettles : ((new policy).beginTick tick).SettlesBy strategy path w requests) :
    ∃ winner, strategy.LeavesTo (WriteRequest.on path requests) winner ∧
      LeftTo (((new policy).beginTick tick).writeEach w requests).1
        (((new policy).beginTick tick).writeEach w requests).2 path
        (WriteRequest.on path requests) winner := by
  obtain ⟨first, hfirst⟩ := List.exists_mem_of_ne_nil _ hsome
  obtain ⟨u', hu'⟩ := (hcompeting.takes first hfirst).written
  obtain ⟨base, hbase⟩ := World.peek_succeeds_of_write hu'
  have hbegun : Stands strategy ((new policy).beginTick tick) w path [] :=
    .untouched rfl hbase rfl
  have hend : Stands strategy (((new policy).beginTick tick).writeEach w requests).1
      (((new policy).beginTick tick).writeEach w requests).2 path
      ([] ++ WriteRequest.on path requests) :=
    hbegun.writeEach hstrategy hcompeting.rules hcompeting.ranked hcompeting.takes hsettles
  rw [List.nil_append] at hend
  generalize WriteRequest.on path requests = writes at hend hsome ⊢
  cases hend with
  | untouched => exact absurd rfl hsome
  | left hpicked _ _ _ _ hleft => exact ⟨_, hpicked, hleft⟩

/-- Of the writes of a cell in a tick, by different rules, in any number and with writes of
other cells in between, priority leaves the cell to the first of those of highest priority,
also where it stands in for merges, and the last write wins where that is the strategy: the
world holds its value, and with more than one write the last record names its rule. -/
theorem highest_priority_or_last_write_wins (policy : Policy) (tick : Value)
    (hsome : WriteRequest.on path requests ≠ [])
    (hcompeting : Competing w path (WriteRequest.on path requests)) :
    (((new policy).beginTick tick).SettlesBy .priority path w requests →
      ∃ winner, WriteRequest.FirstOfHighest (WriteRequest.on path requests) winner ∧
        LeftTo (((new policy).beginTick tick).writeEach w requests).1
          (((new policy).beginTick tick).writeEach w requests).2 path
          (WriteRequest.on path requests) winner) ∧
    (((new policy).beginTick tick).SettlesBy .lastWriteWins path w requests →
      ∃ last, (WriteRequest.on path requests).getLast? = some last ∧
        LeftTo (((new policy).beginTick tick).writeEach w requests).1
          (((new policy).beginTick tick).writeEach w requests).2 path
          (WriteRequest.on path requests) last) :=
  ⟨leftTo_of_settles (.inl rfl) hsome hcompeting, leftTo_of_settles (.inr rfl) hsome hcompeting⟩

def Calm (l : Ledger) : Prop :=
  ∀ path entry, l.entries.get? path = some entry → entry.underReview = false

theorem settled_of_strategyFor (hstrategy : strategy = .priority ∨ strategy = .lastWriteWins)
    (h : l.strategyFor entry request = strategy) :
    (l.resolution entry request).strategy = strategy ∧
      (l.resolution entry request).resolved = true := by
  unfold resolution
  rw [h]
  rcases hstrategy with rfl | rfl
  · simp only [Strategy.resolve, Strategy.judge, Resolution.ofJudgement, Verdict.byPriority]
    cases entry.holderPriority.lt request.priority with
    | true | false => exact ⟨rfl, rfl⟩
  · exact ⟨rfl, rfl⟩

theorem Calm.put (h : l.Calm) (path : String) (hentry : entry.underReview = false) :
    (l.put path entry).Calm := by
  intro other held hheld
  rw [get?_put] at hheld
  split at hheld
  · cases hheld
    exact hentry
  · exact h other held hheld

theorem Calm.of_end (h : l.Calm) (hend : End l w request l' w' outcome)
    (hresolved : ∀ entry, l.entries.get? request.path = some entry →
      (l.resolution entry request).resolved = true) : l'.Calm := by
  cases hend with
  | refused => exact h
  | opened => exact h.put _ rfl
  | @updated entry _ hentry | @withheld entry _ hentry =>
    have hheld : entry.underReview = false := h _ entry hentry
    exact h.put _ hheld
  | @settled entry _ hentry =>
    have hreview : (settledEntry (entry.listing request)
        (l.resolution entry request)).underReview = false := by
      simp [settledEntry, CellEntry.listing, h _ _ hentry, hresolved entry hentry]
    exact h.put request.path hreview

/-- Where neither rules nor actions ask for anything else, the strategy of the policy
settles every conflict. -/
theorem settlesBy_of_policy (hstrategy : strategy = .priority ∨ strategy = .lastWriteWins)
    (hpolicy : l.policy = ⟨strategy, [], []⟩) (hcalm : l.Calm)
    (hplain : ∀ request ∈ requests,
      request.action.strategy? = none ∧ request.ruleMetadata.strategy? = none) :
    l.SettlesBy strategy path w requests := by
  induction requests generalizing l w with
  | nil => trivial
  | cons request rest ih =>
    obtain ⟨haction, hrule⟩ := hplain request List.mem_cons_self
    have hsettled : ∀ entry, l.entries.get? request.path = some entry →
        (l.resolution entry request).strategy = strategy ∧
          (l.resolution entry request).resolved = true := by
      intro entry hentry
      refine settled_of_strategyFor hstrategy ?_
      simp [strategyFor, calledFor?, hcalm _ _ hentry, haction, hrule, hpolicy]
    refine ⟨?_, ih ?_ ?_ fun other hother => hplain other (List.mem_cons_of_mem _ hother)⟩
    · rintro rfl entry hentry -
      exact (hsettled entry hentry).1
    · rw [policy_write, hpolicy]
    · exact hcalm.of_end (end_write l w request) fun entry hentry => (hsettled entry hentry).2

/-- The pilot outranks the tower, and the captain ranks with the pilot; in between the tower
sets the tide. -/
def zoneWrites : List WriteRequest :=
  [zoneRequest "tower" "harbour", zoneRequest "pilot" "sea",
    { zoneRequest "tower" "low" with path := "environment.tide" },
    { zoneRequest "captain" "dock" with priority := 2 }]

theorem competing_zoneWrites :
    Competing default "environment.zone" (WriteRequest.on "environment.zone" zoneWrites) := by
  have hon : WriteRequest.on "environment.zone" zoneWrites = [zoneRequest "tower" "harbour",
      zoneRequest "pilot" "sea", { zoneRequest "captain" "dock" with priority := 2 }] := rfl
  rw [hon]
  refine ⟨by decide, ?_, ?_⟩
  · simp only [List.forall_mem_cons]
    exact ⟨⟨1, rfl, by decide +kernel⟩, ⟨2, rfl, by decide +kernel⟩, ⟨2, rfl, by decide +kernel⟩,
      by simp⟩
  · simp only [List.forall_mem_cons]
    exact ⟨⟨rfl, _, rfl, rfl⟩, ⟨rfl, _, rfl, rfl⟩, ⟨rfl, _, rfl, rfl⟩, by simp⟩

/-- By priority the zone is left to the pilot, who came before the captain. -/
theorem zone_is_left_to_pilot :
    (((new ⟨.priority, [], []⟩).beginTick 0).writeEach default zoneWrites).2.peek
        "environment.zone" = .ok "sea" ∧
      (((new ⟨.lastWriteWins, [], []⟩).beginTick 0).writeEach default zoneWrites).2.peek
        "environment.zone" = .ok "dock" := by
  have hsome : WriteRequest.on "environment.zone" zoneWrites ≠ [] := by decide
  have hplain : ∀ request ∈ zoneWrites,
      request.action.strategy? = none ∧ request.ruleMetadata.strategy? = none := by decide
  have hcalm : ∀ policy, ((new policy).beginTick 0).Calm := fun _ _ _ h => nomatch h
  obtain ⟨hpriority, -⟩ := highest_priority_or_last_write_wins ⟨.priority, [], []⟩ 0 hsome
    competing_zoneWrites
  obtain ⟨-, hlast⟩ := highest_priority_or_last_write_wins ⟨.lastWriteWins, [], []⟩ 0 hsome
    competing_zoneWrites
  obtain ⟨winner, hwinner, hleft⟩ :=
    hpriority (settlesBy_of_policy (.inl rfl) rfl (hcalm _) hplain)
  obtain ⟨last, hlatest, hleft'⟩ := hlast (settlesBy_of_policy (.inr rfl) rfl (hcalm _) hplain)
  constructor
  · have hpilot : WriteRequest.FirstOfHighest (WriteRequest.on "environment.zone" zoneWrites)
        (zoneRequest "pilot" "sea") :=
      ⟨[_], [_], rfl, List.forall_mem_singleton.mpr (by decide +kernel),
        List.forall_mem_singleton.mpr (by decide +kernel)⟩
    rw [hleft.peek, hwinner.unique hpilot]
    rfl
  · cases hlatest
    exact hleft'.peek

end Ledger

end Harbormaster
