import Harbormaster.Proofs.Tick.Conflicts

/-!
Who is informed of conflicts. A conflict is found while one rule has its turn and is then
reported to all rules that its record lists, most of which have had their turns before. The
report looks the record up by its id, so it matters that no id is given twice; and a rule
whose turn comes later finds no conflict that could have listed it.
-/

namespace Harbormaster

def Ledger.Involves (l : Ledger) (conflict rule : String) : Prop :=
  ∃ r, l.records.find? (·.id = conflict) = some r ∧ rule ∈ r.conflictingRules

/-- As ids are not given twice, this is the record that it says it is. -/
theorem Ledger.Numbered.involves_iff {l : Ledger} (h : l.Numbered) {r : ConflictRecord}
    (hr : r ∈ l.records) {rule : String} : l.Involves r.id rule ↔ rule ∈ r.conflictingRules := by
  obtain ⟨found, hfound⟩ : ∃ found, l.records.find? (·.id = r.id) = some found :=
    Option.isSome_iff_exists.mp (List.find?_isSome.mpr ⟨r, hr, decide_eq_true rfl⟩)
  have hid : found.id = r.id := by simpa using List.find?_some hfound
  obtain rfl : found = r :=
    List.inj_on_of_nodup_map h.nodup (List.mem_of_find?_eq_some hfound) hr hid
  simp [Involves, hfound]

namespace Stage

variable {s : Stage} {known : String → Bool} {rule : Rule} {action : Action}

def Reports (s : Stage) (known : String → Bool) (rule : Rule) (action : Action)
    (conflict owner : String) : Prop :=
  (∃ a, (s.execute known rule action).result = .ok a ∧ a.conflictId = some conflict) ∧
    (s.execute known rule action).stage.ledger.Involves conflict owner

/-- An action that asks for a rule brings about no conflict. -/
theorem conflictId_of_request {a : Application}
    (happlied : (s.execute known rule action).result = .ok a) (hrequest : a.triggerRequest ≠ none) :
    a.conflictId = none := by
  have hattempts := s.attempts_execute known rule action
  rw [happlied] at hattempts
  cases hattempts with
  | nothing _ hnone => exact (hnone a rfl).2
  | wrote _ _ _ _ _ _ hnot => exact absurd hnot hrequest

/-- The conflict that an action tells of is the one that it adds to the records. -/
theorem reports_execute (s : Stage) (known : String → Bool) (rule : Rule) (action : Action)
    (hnumbered : (s.execute known rule action).stage.ledger.Numbered) :
    ∃ added, (s.execute known rule action).stage.ledger.records = s.ledger.records ++ added ∧
      ∀ id owner, s.Reports known rule action id owner ↔
        ∃ r ∈ added, r.id = id ∧ owner ∈ r.conflictingRules := by
  unfold Reports
  have hattempts := s.attempts_execute known rule action
  generalize (s.execute known rule action).stage = s' at hattempts hnumbered ⊢
  generalize (s.execute known rule action).result = result at hattempts ⊢
  cases hattempts with
  | nothing hledger hnone =>
    refine ⟨[], by rw [hledger, List.append_nil], fun id owner => ⟨?_, fun h => by simp at h⟩⟩
    rintro ⟨⟨a, hresult, hconflict⟩, -⟩
    rw [(hnone a hresult).2] at hconflict
    cases hconflict
  | failed request _ hend =>
    refine ⟨[], Ledger.records_eq_of_end hend, fun id owner => ⟨?_, fun h => by simp at h⟩⟩
    rintro ⟨⟨a, hresult, -⟩, -⟩
    cases hresult
  | @wrote request _ outcome a _ _ hend _ hconflict =>
    have hrecords := Ledger.records_eq_of_end hend
    refine ⟨_, hrecords, fun id owner => ?_⟩
    simp only [Except.ok.injEq, exists_eq_left', hconflict]
    cases hmade : outcome.conflict with
    | none => simp [Ledger.added, hmade]
    | some record =>
      have hmember : record ∈ s'.ledger.records := by
        rw [hrecords, Ledger.added, hmade]
        exact List.mem_append_right _ (List.mem_singleton_self _)
      have hinvolves : s'.ledger.Involves record.id owner ↔ owner ∈ record.conflictingRules :=
        hnumbered.involves_iff hmember
      simp only [Option.map_some, Option.some.injEq, Ledger.added, hmade, Option.toList_some,
        List.mem_singleton, exists_eq_left]
      constructor
      · rintro ⟨rfl, h⟩
        exact ⟨rfl, hinvolves.mp h⟩
      · rintro ⟨rfl, h⟩
        exact ⟨rfl, hinvolves.mpr h⟩

end Stage

namespace Draft

/-- A change of a draft that adds the conflicts that `p` asks for, and no others. -/
def Informs (p : String → String → Prop) (f : Draft → Draft) : Prop :=
  ∀ d, (f d).rule = d.rule ∧
    ∀ id, id ∈ (f d).conflicts ↔ id ∈ d.conflicts ∨ p id d.rule.id

variable {p q : String → String → Prop} {f g : Draft → Draft}

theorem Informs.congr (hf : Informs p f) (h : ∀ id rule, p id rule ↔ q id rule) : Informs q f :=
  fun d => ⟨(hf d).1, fun id => ((hf d).2 id).trans (or_congr_right (h id d.rule.id))⟩

/-- A change that leaves the conflicts alone adds none. -/
theorem informs_none (hrule : ∀ d, (f d).rule = d.rule)
    (hconflicts : ∀ d, (f d).conflicts = d.conflicts) : Informs (fun _ _ => False) f :=
  fun d => ⟨hrule d, fun id => by rw [hconflicts, or_false]⟩

theorem informs_id : Informs (fun _ _ => False) id := informs_none (fun _ => rfl) fun _ => rfl

theorem Informs.comp (hf : Informs p f) (hg : Informs q g) :
    Informs (fun id rule => q id rule ∨ p id rule) (f ∘ g) := by
  intro d
  refine ⟨((hf (g d)).1).trans (hg d).1, fun id => ?_⟩
  rw [Function.comp, (hf (g d)).2 id, (hg d).1, (hg d).2 id, or_assoc]

@[simp] theorem recordApplication_conflicts (d : Draft) (a : Application) :
    (d.recordApplication a).conflicts = d.conflicts := by
  unfold recordApplication
  dsimp only
  split <;> rfl

theorem mem_recordConflict (d : Draft) (id summary other : String) :
    other ∈ (d.recordConflict id summary).conflicts ↔ other ∈ d.conflicts ∨ other = id := by
  unfold recordConflict
  split
  · rename_i hlisted
    have hthere : id ∈ d.conflicts := by simpa using hlisted
    constructor
    · exact .inl
    · rintro (hformer | rfl)
      · exact hformer
      · exact hthere
  · simp

/-- A report of a conflict to one rule. -/
theorem informs_recordConflict (rule id summary : String) :
    Informs (fun other owner => other = id ∧ owner = rule)
      (fun d => if d.rule.id = rule then d.recordConflict id summary else d) := by
  intro d
  dsimp only
  split
  · rename_i hrule
    refine ⟨(addsNotes_recordConflict id summary).annotates.rule d, fun other => ?_⟩
    simp [mem_recordConflict, hrule]
  · rename_i hrule
    simp [hrule]

end Draft

namespace Tick

variable {r : TickRules} {waiting : List Rule} {source : QueueEntry} {rule : Rule}
  {action : Action} {t t' : Tick} {scheduled scheduled' : List QueueEntry}

theorem drafts_reports (conflict summary : String) (rules : List String) (t : Tick) :
    ∃ g, Draft.Informs (fun other owner => other = conflict ∧ owner ∈ rules) g ∧
      (rules.foldl (fun t rule => t.updateDraft rule (·.recordConflict conflict summary))
        t).drafts = t.drafts.map g := by
  induction rules generalizing t with
  | nil => exact ⟨id, Draft.informs_id.congr (by simp), by simp⟩
  | cons rule rest ih =>
    obtain ⟨g, hg, hdrafts⟩ := ih (t.updateDraft rule (·.recordConflict conflict summary))
    refine ⟨_, (hg.comp (Draft.informs_recordConflict rule conflict summary)).congr ?_, ?_⟩
    · intro other owner
      simp [and_or_left]
    · rw [List.foldl_cons, hdrafts, updateDraft, List.map_map]

/-- A conflict is reported to all who took part in it. -/
theorem drafts_attachConflict (t : Tick) (conflict : String) :
    ∃ g, Draft.Informs (fun other owner =>
        other = conflict ∧ t.stage.ledger.Involves conflict owner) g ∧
      (t.attachConflict conflict).drafts = t.drafts.map g := by
  unfold attachConflict Ledger.Involves
  split
  · rename_i hnone
    exact ⟨id, Draft.informs_id.congr (by simp [hnone]), by simp⟩
  · rename_i record hfound
    obtain ⟨g, hg, hdrafts⟩ :=
      drafts_reports conflict (conflictSummary record) record.conflictingRules t
    exact ⟨g, hg.congr (by simp [hfound]), hdrafts⟩

theorem drafts_updateDraft (t : Tick) (rule : String) {f : Draft → Draft}
    (hrule : ∀ d, (f d).rule = d.rule) (hconflicts : ∀ d, (f d).conflicts = d.conflicts) :
    ∃ g, Draft.Informs (fun _ _ => False) g ∧ (t.updateDraft rule f).drafts = t.drafts.map g := by
  refine ⟨_, Draft.informs_none ?_ ?_, rfl⟩
  · intro d
    split
    · exact hrule d
    · rfl
  · intro d
    split
    · exact hconflicts d
    · rfl

theorem drafts_recordFailed (t : Tick) (rule : Rule) (action : Action) (failure : Failure) :
    ∃ g, Draft.Informs (fun _ _ => False) g ∧
      (t.recordFailed rule action failure).drafts = t.drafts.map g :=
  t.drafts_updateDraft rule.id
    (f := fun d => (d.recordApplication (.failed action failure .absent)).addFailure
      failure.recorded) (fun d => by simp) (fun d => by simp [Draft.addFailure])

theorem drafts_recordApplied (t : Tick) (rule : Rule) (a : Application) :
    ∃ g, Draft.Informs (fun id owner =>
        a.conflictId = some id ∧ t.stage.ledger.Involves id owner) g ∧
      (t.recordApplied rule a).drafts = t.drafts.map g := by
  obtain ⟨g, hg, hdrafts⟩ := t.drafts_updateDraft rule.id (Draft.recordApplication_rule · a)
    (Draft.recordApplication_conflicts · a)
  unfold recordApplied
  dsimp only
  split
  · rename_i conflict hconflict
    obtain ⟨f, hf, hattached⟩ := drafts_attachConflict
      { t.updateDraft rule.id (·.recordApplication a) with actionsApplied := t.actionsApplied + 1 }
      conflict
    refine ⟨_, (hf.comp hg).congr ?_, ?_⟩
    · intro id owner
      rw [false_or, hconflict, Option.some.injEq]
      constructor
      · rintro ⟨rfl, hinvolves⟩
        exact ⟨rfl, hinvolves⟩
      · rintro ⟨rfl, hinvolves⟩
        exact ⟨rfl, hinvolves⟩
    · exact hattached.trans (by rw [hdrafts, List.map_map])
  · rename_i hnone
    exact ⟨g, hg.congr (by simp [hnone]), hdrafts⟩

/-- An action reports the conflict that it tells of. -/
theorem Act.informs (h : Act r waiting source rule action t scheduled t' scheduled') :
    ∃ g, Draft.Informs (t.stage.Reports r.known rule action) g ∧ t'.drafts = t.drafts.map g := by
  have happlied : ∀ {a : Application} {g : Draft → Draft},
      (t.stage.execute r.known rule action).result = .ok a →
      Draft.Informs (fun id owner => a.conflictId = some id ∧
        (t.stage.execute r.known rule action).stage.ledger.Involves id owner) g →
      Draft.Informs (t.stage.Reports r.known rule action) g :=
    fun hresult hg => hg.congr fun id owner => by simp [Stage.Reports, hresult]
  cases h with
  | @failed failure hresult =>
    obtain ⟨g, hg, hdrafts⟩ := (t.perform r rule action).drafts_recordFailed rule action failure
    exact ⟨g, hg.congr (by simp [Stage.Reports, hresult]), hdrafts⟩
  | @overflowed a _ overflow hresult hrequest =>
    obtain ⟨g, hg, hdrafts⟩ :=
      ((t.perform r rule action).halt overflow).drafts_recordFailed rule action _
    have hnone : a.conflictId = none :=
      Stage.conflictId_of_request hresult (hrequest ▸ Option.some_ne_none _)
    exact ⟨g, hg.congr (by simp [Stage.Reports, hresult, hnone]), hdrafts⟩
  | @applied a hresult | @queued a _ _ hresult =>
    obtain ⟨g, hg, hdrafts⟩ := (t.perform r rule action).drafts_recordApplied rule a
    exact ⟨g, happlied hresult hg, hdrafts⟩
  | @ignored a _ note hresult =>
    obtain ⟨f, hf, hnoted⟩ := (t.perform r rule action).drafts_updateDraft rule.id
      (f := (·.addSideEffect note)) (fun _ => rfl) fun _ => rfl
    obtain ⟨g, hg, hdrafts⟩ := drafts_recordApplied
      ((t.perform r rule action).updateDraft rule.id (·.addSideEffect note)) rule
      { a with triggerRequest := none, message := a.message ++ " (ignored)" }
    refine ⟨g ∘ f, happlied hresult ((hg.comp hf).congr fun _ _ => ?_), ?_⟩
    · rw [false_or]
      rfl
    · rw [hdrafts, hnoted, List.map_map]
      rfl

def Informed (t : Tick) : Prop :=
  ∀ d ∈ t.drafts, ∀ id, id ∈ d.conflicts ↔
    ∃ r ∈ t.stage.ledger.records, r.id = id ∧ d.rule.id ∈ r.conflictingRules

/-- New conflicts have to be reported to those whom their records list. -/
theorem Informed.map (h : t.Informed) {g : Draft → Draft} {added : List ConflictRecord}
    (hg : Draft.Informs (fun id rule => ∃ r ∈ added, r.id = id ∧ rule ∈ r.conflictingRules) g)
    (hdrafts : t'.drafts = t.drafts.map g)
    (hrecords : t'.stage.ledger.records = t.stage.ledger.records ++ added) : t'.Informed := by
  intro d hd id
  rw [hdrafts] at hd
  obtain ⟨former, hformer, rfl⟩ := List.mem_map.mp hd
  obtain ⟨hrule, hconflicts⟩ := hg former
  rw [hrecords, hrule, hconflicts, h former hformer id]
  simp only [List.mem_append, or_and_right, exists_or]

theorem Informed.act (h : t.Informed) (hbooks : t'.Books)
    (hact : Act r waiting source rule action t scheduled t' scheduled') : t'.Informed := by
  obtain ⟨g, hg, hdrafts⟩ := hact.informs
  obtain ⟨added, hrecords, hreports⟩ :=
    t.stage.reports_execute r.known rule action (hact.stage ▸ hbooks.numbered)
  exact h.map (hg.congr hreports) hdrafts (by rw [hact.stage, hrecords])

theorem Informed.noteIgnored (h : t.Informed) (entry : QueueEntry) :
    (t.noteIgnored entry).Informed := by
  obtain ⟨g, hg, hdrafts⟩ : ∃ g, Draft.Informs (fun _ _ => False) g ∧
      (t.noteIgnored entry).drafts = t.drafts.map g := by
    unfold Tick.noteIgnored
    split
    · exact t.drafts_updateDraft _ (fun _ => rfl) fun _ => rfl
    · exact ⟨id, Draft.informs_id, by simp⟩
  have hsame : (t.noteIgnored entry).stage.ledger.records = t.stage.ledger.records ++ [] := by
    rw [stage_noteIgnored, List.append_nil]
  exact h.map (hg.congr (by simp)) hdrafts hsame

/-- A rule that gets its turn is not listed in any record. -/
theorem Informed.opened (h : t.Informed) (hbooks : t.Books) (hnew : rule.id ∉ t.evaluated)
    (source : QueueEntry) (notices : List Notice) : (t.opened source rule notices).Informed := by
  intro d hd id
  rcases List.mem_append.mp hd with hformer | hlast
  · exact h d hformer id
  · rw [List.mem_singleton.mp hlast]
    have hnone : (t.opening source rule).conflicts = [] := by
      obtain ⟨_, _, _, heq⟩ := t.opening_eq source rule
      rw [heq]
      rfl
    rw [hnone, opening_rule]
    constructor
    · intro hlisted
      exact (List.not_mem_nil hlisted).elim
    · rintro ⟨r, hr, -, hlisted⟩
      exact absurd ((hbooks.disputes.parties r hr).2.subset hlisted) hnew

/-- The traces of conflicts agree throughout a tick. -/
theorem lasting_informed (r : TickRules) : Lasting r fun t => t.Books ∧ t.Informed := by
  refine (lasting_books r).and ?_ ?_ ?_
  · exact fun entry _ h => h.noteIgnored entry
  · exact fun source notices hnew hbooks h => h.opened hbooks hnew source notices
  · exact fun _ _ hact _ hbooks h => h.act hbooks hact

end Tick

end Harbormaster
