import Harbormaster.Proofs.Conflict.Records
import Harbormaster.Proofs.Explanation.Replay
import Harbormaster.Proofs.Tick.Moments

/-!
Conflicts in the course of a tick. An action that changes a cell comes to one of the ends
that writes have, and its application tells of the cell and of the conflict. What is told
in this way agrees with the books of the ledger after every action, also where actions fail
or overflow the chain. Nothing is said here of how a conflict is settled, nor of who is
informed of it.
-/

namespace Harbormaster

def Application.cell? (a : Application) : Option String :=
  if a.success && a.action.kind.isMutating then some a.action.target.plainText else none

namespace Stage

variable {s s' : Stage} {known : String → Bool} {rule : Rule} {action : Action}

inductive Attempts (s : Stage) (rule : Rule) : Stage → Except Failure Application → Prop where
  /-- It writes nothing. -/
  | nothing {s' : Stage} {result : Except Failure Application} (hledger : s'.ledger = s.ledger)
      (hnone : ∀ a, result = .ok a → a.cell? = none ∧ a.conflictId = none) :
      Attempts s rule s' result
  /-- It makes a write that fails. -/
  | failed (request : WriteRequest) {s' : Stage} {refusal failure : Failure}
      (hrule : request.ruleId = rule.id)
      (hend : Ledger.End s.ledger s.world request s'.ledger s'.world (.error refusal)) :
      Attempts s rule s' (.error failure)
  /-- It makes a write that goes through, and tells of the conflict if there was one. -/
  | wrote (request : WriteRequest) {s' : Stage} {outcome : WriteOutcome} {a : Application}
      (hrule : request.ruleId = rule.id) (hspells : ∃ path, Path.parse? request.path = some path)
      (hend : Ledger.End s.ledger s.world request s'.ledger s'.world (.ok outcome))
      (hcell : a.cell? = some request.path) (hconflict : a.conflictId = outcome.conflict.map (·.id))
      (hrequest : a.triggerRequest = none) : Attempts s rule s' (.ok a)

theorem attempts_execute (s : Stage) (known : String → Bool) (rule : Rule) (action : Action) :
    s.Attempts rule (s.execute known rule action).stage (s.execute known rule action).result := by
  unfold execute
  cases hdeed : Deed.ofAction known rule action s.world with
  | error failure => exact .nothing rfl fun _ hresult => nomatch hresult
  | ok deed =>
    cases Deed.of_ofAction hdeed with
    | recommend hkind | trigger hkind | spawn hkind | log hkind =>
      refine .nothing rfl ?_
      rintro a ⟨⟩
      exact ⟨by simp [Application.cell?, Application.recommended, Application.triggering,
        Application.spawned, Application.logged, Application.plain, hkind], rfl⟩
    | @write value range before message hkind hbefore =>
      have hwrote := wrote_performWrite s rule action action.target.plainText value range before
        message
      simp only [perform]
      generalize (s.performWrite rule action action.target.plainText value range before
        message).stage = s' at hwrote ⊢
      generalize (s.performWrite rule action action.target.plainText value range before
        message).result = result at hwrote ⊢
      cases hwrote with
      | @intro _ _ outcome hend =>
        have hspells := World.parse?_of_current hbefore
        cases outcome with
        | error refusal => exact .failed (requestOf rule action _ value range) rfl hend
        | ok outcome =>
          obtain ⟨_, hwritten⟩ := Application.written_eq action before outcome message
          refine .wrote (requestOf rule action _ value range) rfl hspells hend ?_
            (congrArg Application.conflictId hwritten)
            (congrArg Application.triggerRequest hwritten)
          simp [hwritten, Application.cell?, Application.plain, requestOf, hkind]

end Stage

namespace Tick

variable {r : TickRules} {waiting : List Rule} {source : QueueEntry} {rule : Rule}
  {action : Action} {t t' : Tick} {scheduled scheduled' : List QueueEntry} {ids : List String}

def writes (t : Tick) : List (String × String) :=
  t.told.filterMap fun told => told.2.cell?.map (·, told.1)

theorem mem_writes {path id : String} :
    (path, id) ∈ t.writes ↔ ∃ a, (id, a) ∈ t.told ∧ a.cell? = some path := by
  simp [writes]

def conflictIds (t : Tick) : List String := t.told.filterMap (·.2.conflictId)

/-- What is told of an action is what it came to for the ledger. -/
theorem Act.attempt (h : Act r waiting source rule action t scheduled t' scheduled')
    (hlast : t.evaluated = ids ++ [rule.id]) (hnew : rule.id ∉ ids) :
    ∃ a, t'.told = t.told ++ [(rule.id, a)] ∧
      (∀ text, a.cell? = some text → ∃ path, Path.parse? text = some path) ∧
      ((t'.stage.ledger = t.stage.ledger ∧ a.cell? = none ∧ a.conflictId = none) ∨
        ∃ request outcome, request.ruleId = rule.id ∧
          Ledger.End t.stage.ledger t.stage.world request t'.stage.ledger t'.stage.world outcome ∧
          (a.cell?.map (·, rule.id)).toList = request.booking outcome ∧
          a.conflictId.toList = (Ledger.added outcome).map (·.id)) := by
  obtain ⟨a, htold, ha⟩ := h.told hlast hnew
  refine ⟨a, htold, ?_⟩
  rw [h.stage]
  have hattempts := t.stage.attempts_execute r.known rule action
  generalize (t.stage.execute r.known rule action).stage = s' at hattempts ⊢
  generalize (t.stage.execute r.known rule action).result = result at hattempts ha
  cases hattempts with
  | nothing hledger hnone =>
    have hsilent : a.cell? = none ∧ a.conflictId = none := by
      cases ha with
      | failed => exact ⟨rfl, rfl⟩
      | @applied a₀ hresult => exact hnone a₀ hresult
    refine ⟨fun text htext => ?_, .inl ⟨hledger, hsilent⟩⟩
    rw [hsilent.1] at htext
    cases htext
  | failed request hrule hend =>
    cases ha with
    | applied hresult => cases hresult
    | failed => exact ⟨fun _ htext => (nomatch htext), .inr ⟨request, _, hrule, hend, rfl, rfl⟩⟩
  | @wrote request _ outcome a₀ hrule hspells hend hcell hconflict hrequest =>
    cases ha with
    | failed _ hasks => exact absurd hrequest (hasks a₀ rfl)
    | applied hresult =>
      cases hresult
      refine ⟨fun text htext => ?_, .inr ⟨request, _, hrule, hend, ?_, ?_⟩⟩
      · obtain rfl := Option.some.inj (hcell.symm.trans htext)
        exact hspells
      · change (a₀.cell?.map (·, rule.id)).toList = _
        rw [hcell, ← hrule]
        rfl
      · change a₀.conflictId.toList = _
        rw [hconflict, Ledger.added]
        cases outcome.conflict with
        | none | some => rfl

/-- The books of a tick: what the ledger has of writes and conflicts is what its
applications tell of them. -/
structure Books (t : Tick) : Prop where
  lists : t.stage.ledger.Lists t.evaluated t.writes
  disputes : t.stage.ledger.Disputes t.evaluated t.writes
  numbered : t.stage.ledger.Numbered
  named : t.conflictIds = t.stage.ledger.records.map (·.id)
  spelled : ∀ path id, (path, id) ∈ t.writes → ∃ spelled, Path.parse? path = some spelled

theorem Books.congr (h : t.Books) (htold : t'.told = t.told)
    (hledger : t'.stage.ledger = t.stage.ledger) (hevaluated : t'.evaluated = t.evaluated) :
    t'.Books := by
  have hwrites : t'.writes = t.writes := by rw [writes, htold, writes]
  have hids : t'.conflictIds = t.conflictIds := by rw [conflictIds, htold, conflictIds]
  refine ⟨?_, ?_, ?_, ?_, ?_⟩
  · rw [hledger, hwrites, hevaluated]
    exact h.lists
  · rw [hledger, hwrites, hevaluated]
    exact h.disputes
  · rw [hledger]
    exact h.numbered
  · rw [hledger, hids]
    exact h.named
  · rw [hwrites]
    exact h.spelled

theorem Books.act (h : t.Books) (hlast : t.evaluated = ids ++ [rule.id]) (hnew : rule.id ∉ ids)
    (hact : Act r waiting source rule action t scheduled t' scheduled') : t'.Books := by
  obtain ⟨a, htold, hspells, hattempt⟩ := hact.attempt hlast hnew
  have hwrites : t'.writes = t.writes ++ (a.cell?.map (·, rule.id)).toList := by
    rw [writes, htold, List.filterMap_append, ← writes]
    cases hcell : a.cell? with
    | none | some => simp [hcell]
  have hids : t'.conflictIds = t.conflictIds ++ a.conflictId.toList := by
    rw [conflictIds, htold, List.filterMap_append, ← conflictIds]
    cases hconflict : a.conflictId with
    | none | some => simp [hconflict]
  have hspelled : ∀ path id, (path, id) ∈ t'.writes →
      ∃ spelled, Path.parse? path = some spelled := by
    intro path id hwrite
    rw [hwrites] at hwrite
    rcases List.mem_append.mp hwrite with hformer | hnow
    · exact h.spelled path id hformer
    · obtain ⟨text, htext, heq⟩ := Option.map_eq_some_iff.mp (Option.mem_toList.mp hnow)
      obtain ⟨rfl, -⟩ := Prod.mk.inj heq
      exact hspells text htext
  rcases hattempt with ⟨hledger, hcell, hconflict⟩ |
    ⟨request, outcome, hrule, hend, hcell, hconflict⟩
  · refine ⟨?_, ?_, ?_, ?_, hspelled⟩
    · rw [hledger, hwrites, hcell, hact.evaluated]
      simpa using h.lists
    · rw [hledger, hwrites, hcell, hact.evaluated]
      simpa using h.disputes
    · rw [hledger]
      exact h.numbered
    · rw [hledger, hids, hconflict]
      simpa using h.named
  · have hlists := h.lists
    have hdisputes := h.disputes
    rw [hlast, ← hrule] at hlists hdisputes
    rw [← hrule] at hnew
    refine ⟨?_, ?_, h.numbered.of_end hend, ?_, hspelled⟩
    · rw [hwrites, hcell, hact.evaluated, hlast, ← hrule]
      exact hlists.of_end hend
    · rw [hwrites, hcell, hact.evaluated, hlast, ← hrule]
      exact hdisputes.of_end hlists hnew hend
    · rw [hids, hconflict, h.named, Ledger.records_eq_of_end hend, List.map_append]

theorem Books.opened (h : t.Books) (source : QueueEntry) (rule : Rule) (notices : List Notice) :
    (t.opened source rule notices).Books := by
  have htold := t.told_opened source rule notices
  have hwrites : (t.opened source rule notices).writes = t.writes := by rw [writes, htold, writes]
  refine ⟨?_, ?_, h.numbered, ?_, ?_⟩
  · rw [hwrites, evaluated_opened]
    exact h.lists.turn rule.id
  · rw [hwrites, evaluated_opened]
    exact h.disputes.turn rule.id
  · rw [conflictIds, htold, ← conflictIds]
    exact h.named
  · rw [hwrites]
    exact h.spelled

theorem lasting_books (r : TickRules) : Lasting r Books := by
  refine ⟨?_, fun source notices _ h => h.opened source _ notices,
    fun hlast hnew hact h => h.act hlast hnew hact⟩
  intro t entry h
  exact h.congr (t.told_noteIgnored entry) (by rw [stage_noteIgnored])
    (evaluated_noteIgnored t entry)

end Tick

end Harbormaster
