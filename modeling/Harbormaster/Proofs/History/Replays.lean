import Harbormaster.Engine.Snapshot
import Harbormaster.Proofs.History.Cursors
import Harbormaster.Proofs.History.Numbering

/-!
A history in use. Ticks are committed or refused, cursors are handed out and moved, and all of
this in any order; whatever the order, no cursor is in the way of another or of a commit. So
what a cursor shows as it goes forward, again and again, is the history from its beginning,
with the commits that came later in their places.
-/

namespace Harbormaster

open Number (exactLimit)

/-- A history and the cursors that were handed out over it. -/
structure Archive (ρ : Type) where
  store : Store ρ
  cursors : List Cursor

namespace Archive

inductive Call (ρ : Type) where
  | commit (tick : Value) (record : ρ) (w : World)
  | replay
  | move (cursor : Nat) (m : Cursor.Move)

variable {ρ : Type} {a : Archive ρ} {c : Cursor} {start i : Nat}

/-- What a cursor shows. -/
def current (a : Archive ρ) (i : Nat) : Option (Commit ρ) :=
  a.cursors[i]?.bind (·.current a.store.commits)

theorem current_eq (hc : a.cursors[i]? = some c) : a.current i = c.current a.store.commits := by
  simp [current, hc]

def Call.moves (i : Nat) : Call ρ → Bool
  | .move cursor _ => cursor = i
  | _ => false

def Call.turns (i : Nat) : Call ρ → Bool
  | .move _ .forward => false
  | call => call.moves i

theorem Call.eq_forward {call : Call ρ} (hmoves : call.moves i = true)
    (hahead : call.turns i = false) : call = .move i .forward := by
  cases call with
  | commit | replay => cases hmoves
  | move cursor m =>
    obtain rfl : cursor = i := by simpa [moves] using hmoves
    cases m with
    | forward => rfl
    | back | seek => simp [turns, moves] at hahead

/-- Commits are numbered from `start` on, and no cursor has left them. -/
structure Sound (start : Nat) (a : Archive ρ) : Prop where
  numbered : a.store.Numbered start
  stands : ∀ c ∈ a.cursors, c.Stands a.store.commits

theorem Sound.stands_at (h : Sound start a) (hc : a.cursors[i]? = some c) :
    c.Stands a.store.commits :=
  h.stands c (List.mem_of_getElem? hc)

variable [Storable ρ]

/-- What a call shows, and what it leaves behind. -/
def call (a : Archive ρ) : Call ρ → Option (Commit ρ) × Archive ρ
  | .commit tick record w =>
    match a.store.commit tick record w with
    | .ok (store, commit, _) => (some commit, { a with store })
    | .error _ => (none, a)
  | .replay => (none, { a with cursors := a.cursors ++ [.new] })
  | .move cursor m =>
    match a.cursors[cursor]? with
    | some c =>
      let (shown, moved) := c.move a.store.commits m
      (shown, { a with cursors := a.cursors.set cursor moved })
    | none => (none, a)

def after (a : Archive ρ) (calls : List (Call ρ)) : Archive ρ :=
  calls.foldl (fun a call => (a.call call).2) a

def shown (i : Nat) : Archive ρ → List (Call ρ) → List (Commit ρ)
  | _, [] => []
  | a, call :: rest =>
    (if call.moves i then (a.call call).1.toList else []) ++ shown i (a.call call).2 rest

def Cancel (a : Archive ρ) (i : Nat) (m n : Cursor.Move) : Prop :=
  (a.call (.move i m)).1.isSome = true →
    ∀ calls : List (Call ρ), (∀ call ∈ calls, call.moves i = false) →
      let b := (a.call (.move i m)).2.after calls
      (a.current i).isSome = true ∧ (b.call (.move i n)).1 = a.current i ∧
        (b.call (.move i n)).2.current i = a.current i

/-- What a history that began at `start` and the cursors over it can be relied on for. -/
structure Replays (start : Nat) (a : Archive ρ) : Prop where
  /-- The tick that is next becomes the last commit, and any other one changes nothing. -/
  accepted : ∀ (tick : Value) (record : ρ) (w : World),
    let next : Number := .ofNat a.store.commits.length + .ofNat start
    let commit : Commit ρ := ⟨next, Storable.stored record, w.stored⟩
    a.call (.commit tick record w) =
      if tick.sameItem (.number next) then
        (some commit, { a with store.commits := a.store.commits ++ [commit] })
      else (none, a)
  /-- The number of a commit is counted on from `start`. -/
  numbered : ∀ k commit, a.store.commits[k]? = some commit →
    commit.tick = .ofNat k + .ofNat start ∧
      (start + k ≤ exactLimit → commit.tick.toInt? = some ((start + k : Nat) : Int))
  /-- Ticks that are counted exactly are all different, and come one after the other. -/
  ordered : start + a.store.commits.length ≤ exactLimit →
    a.store.commits.Pairwise fun former later => former.tick.lt later.tick = true
  /-- A commit can be looked up and gone to under the same integers. -/
  indexed : start + a.store.commits.length < exactLimit → ∀ i < a.cursors.length,
    ∀ (tick : Number) (n : Int), tick.toInt? = some n →
      (a.call (.move i (.seek tick))).1 = a.store.commit? tick
  /-- A move that shows nothing changes nothing. -/
  failing : ∀ i m, (a.call (.move i m)).1 = none → (a.call (.move i m)).2 = a
  /-- A move that shows a commit leaves the cursor on it. -/
  showing : ∀ i m commit, (a.call (.move i m)).1 = some commit →
    (a.call (.move i m)).2.current i = some commit
  /-- A cursor goes on to show what it shows until it is moved itself. -/
  steady : ∀ i < a.cursors.length, ∀ calls : List (Call ρ), (∀ call ∈ calls, call.moves i = false) →
    (a.after calls).current i = a.current i
  /-- There is a way forward for each way back. -/
  back : ∀ i, a.Cancel i .back .forward
  /-- And a way back for each way forward, from a commit on. -/
  forward : ∀ i, (a.current i).isSome = true → a.Cancel i .forward .back
  /-- A cursor that goes forward only shows the history from its beginning on, each commit once,
  and all of it if it goes on for as long as there are commits. -/
  complete : ∀ calls : List (Call ρ), (∀ call ∈ calls, call.turns a.cursors.length = false) →
    let all := (a.after (.replay :: calls)).store.commits
    shown a.cursors.length a (.replay :: calls) <+: all ∧
      ∀ n ≥ all.length, shown a.cursors.length a
        (.replay :: calls ++ .replicate n (.move a.cursors.length .forward)) = all

section Calls

/-- A commit is refused and changes nothing, or the history goes on with it. -/
theorem call_commit (a : Archive ρ) (tick : Value) (record : ρ) (w : World) :
    a.call (.commit tick record w) = (none, a) ∨
      ∃ store commit notice, a.store.commit tick record w = .ok (store, commit, notice) ∧
        a.call (.commit tick record w) = (some commit, { a with store }) := by
  cases hcommit : a.store.commit tick record w with
  | error failure => exact .inl (by simp [call, hcommit])
  | ok result =>
    obtain ⟨store, commit, notice⟩ := result
    exact .inr ⟨store, commit, notice, rfl, by simp [call, hcommit]⟩

theorem call_move (h : a.cursors[i]? = some c) (m : Cursor.Move) :
    a.call (.move i m) = ((c.move a.store.commits m).1,
      { a with cursors := a.cursors.set i (c.move a.store.commits m).2 }) := by
  simp [call, h]

theorem cursor_move (h : a.cursors[i]? = some c) (m : Cursor.Move) :
    (a.call (.move i m)).2.cursors[i]? = some (c.move a.store.commits m).2 := by
  obtain ⟨hi, -⟩ := List.getElem?_eq_some_iff.mp h
  rw [call_move h]
  exact List.getElem?_set_self hi

theorem store_move (a : Archive ρ) (i : Nat) (m : Cursor.Move) :
    (a.call (.move i m)).2.store = a.store := by
  simp only [call]
  split <;> rfl

theorem call_move_of_none (h : a.cursors[i]? = none) (m : Cursor.Move) :
    a.call (.move i m) = (none, a) := by
  simp [call, h]

theorem after_append (a : Archive ρ) (former later : List (Call ρ)) :
    a.after (former ++ later) = (a.after former).after later :=
  List.foldl_append

/-- A commit is added behind the others, and a move or a refusal adds none. -/
theorem commits_call (a : Archive ρ) (call : Call ρ) :
    ∃ later, (a.call call).2.store.commits = a.store.commits ++ later := by
  cases call with
  | commit tick record w =>
    rcases a.call_commit tick record w with hrefused | ⟨store, commit, notice, hcommit, haccepted⟩
    · exact ⟨[], by simp [hrefused]⟩
    · obtain ⟨-, rfl⟩ := Store.of_commit hcommit
      exact ⟨[commit], by simp [haccepted]⟩
  | replay => exact ⟨[], by simp [Archive.call]⟩
  | move cursor m => exact ⟨[], by simp [store_move]⟩

theorem commits_after (a : Archive ρ) (calls : List (Call ρ)) :
    ∃ later, (a.after calls).store.commits = a.store.commits ++ later := by
  induction calls generalizing a with
  | nil => exact ⟨[], by simp [after]⟩
  | cons call rest ih =>
    obtain ⟨first, hfirst⟩ := a.commits_call call
    obtain ⟨others, hothers⟩ := ih (a.call call).2
    refine ⟨first ++ others, ?_⟩
    rw [← List.append_assoc, ← hfirst, ← hothers]
    rfl

/-- Only its own moves move a cursor. -/
theorem cursor_call (h : a.cursors[i]? = some c) {call : Call ρ} (hother : call.moves i = false) :
    (a.call call).2.cursors[i]? = some c := by
  cases call with
  | commit tick record w =>
    rcases a.call_commit tick record w with hrefused | ⟨store, commit, notice, -, haccepted⟩
    · rw [hrefused]
      exact h
    · rw [haccepted]
      exact h
  | replay =>
    obtain ⟨hi, -⟩ := List.getElem?_eq_some_iff.mp h
    exact (List.getElem?_append_left hi).trans h
  | move cursor m =>
    cases hcursor : a.cursors[cursor]? with
    | some other =>
      have hne : cursor ≠ i := by simpa [Call.moves] using hother
      rw [call_move hcursor]
      exact (List.getElem?_set_ne hne).trans h
    | none =>
      rw [call_move_of_none hcursor]
      exact h

theorem cursor_after (h : a.cursors[i]? = some c) {calls : List (Call ρ)}
    (hothers : ∀ call ∈ calls, call.moves i = false) : (a.after calls).cursors[i]? = some c := by
  induction calls generalizing a with
  | nil => exact h
  | cons call rest ih =>
    obtain ⟨hother, hrest⟩ := List.forall_mem_cons.mp hothers
    exact ih (cursor_call h hother) hrest

end Calls

section Sound

variable {m n : Cursor.Move}

theorem Sound.call (h : Sound start a) (call : Call ρ) : Sound start (a.call call).2 := by
  cases call with
  | commit tick record w =>
    rcases a.call_commit tick record w with hrefused | ⟨store, commit, notice, hcommit, haccepted⟩
    · rw [hrefused]
      exact h
    · have hnumbered := h.numbered.commit hcommit
      obtain ⟨-, rfl⟩ := Store.of_commit hcommit
      rw [haccepted]
      exact ⟨hnumbered, fun c hc => (h.stands c hc).append _⟩
  | replay =>
    refine ⟨h.numbered, fun c hc => ?_⟩
    rcases List.mem_append.mp hc with hformer | hnew
    · exact h.stands c hformer
    · rw [List.mem_singleton.mp hnew]
      exact Cursor.stands_new _
  | move cursor m =>
    cases hcursor : a.cursors[cursor]? with
    | some moved =>
      rw [call_move hcursor]
      refine ⟨h.numbered, fun c hc => ?_⟩
      rcases List.mem_or_eq_of_mem_set hc with hother | rfl
      · exact h.stands c hother
      · exact (h.stands_at hcursor).move m
    | none =>
      rw [call_move_of_none hcursor]
      exact h

theorem Sound.after (h : Sound start a) (calls : List (Call ρ)) : Sound start (a.after calls) := by
  induction calls generalizing a with
  | nil => exact h
  | cons call rest ih => exact ih (h.call call)

/-- A cursor that is not moved shows what it showed. -/
theorem Sound.current_after (h : Sound start a) (hi : i < a.cursors.length)
    {calls : List (Call ρ)} (hothers : ∀ call ∈ calls, call.moves i = false) :
    (a.after calls).current i = a.current i := by
  have hc : a.cursors[i]? = some a.cursors[i] := List.getElem?_eq_getElem hi
  obtain ⟨later, hlater⟩ := a.commits_after calls
  rw [current_eq (cursor_after hc hothers), current_eq hc, hlater,
    (h.stands_at hc).current_append]

/-- Moves cancel out among other calls if they do so over a history that grows meanwhile. -/
theorem Sound.cancel (h : Sound start a)
    (hcancel : ∀ c, a.cursors[i]? = some c → (c.move a.store.commits m).1.isSome = true →
      ∀ later, (c.current a.store.commits).isSome = true ∧
        (c.move a.store.commits m).2.move (a.store.commits ++ later) n =
          (c.current a.store.commits, c)) : a.Cancel i m n := by
  intro hshows calls hothers
  cases hc : a.cursors[i]? with
  | none =>
    rw [call_move_of_none hc] at hshows
    cases hshows
  | some c =>
    let b := (a.call (.move i m)).2.after calls
    have hthere : b.cursors[i]? = some (c.move a.store.commits m).2 :=
      cursor_after (cursor_move hc m) hothers
    obtain ⟨later, hlater⟩ : ∃ later, b.store.commits = a.store.commits ++ later := by
      rw [← a.store_move i m]
      exact commits_after _ _
    rw [call_move hc] at hshows
    obtain ⟨hsome, hreturn⟩ := hcancel c hc hshows later
    have hback : (b.call (.move i n)).2.current i = c.current b.store.commits := by
      rw [current_eq (cursor_move hthere n), b.store_move, hlater, hreturn]
    refine ⟨?_, ?_, ?_⟩
    · rw [current_eq hc]
      exact hsome
    · rw [call_move hthere, hlater, hreturn, current_eq hc]
    · rw [hback, hlater, (h.stands_at hc).current_append, current_eq hc]

end Sound

section Forward

/-- What a cursor shows when it goes forward comes behind what it has come by. -/
theorem Sound.take_call (h : Sound start a) (hc : a.cursors[i]? = some c) {call : Call ρ}
    (hahead : call.turns i = false) :
    ∃ next, (a.call call).2.cursors[i]? = some next ∧
      a.store.commits.take c.reached ++
          (if call.moves i then (a.call call).1.toList else []) =
        (a.call call).2.store.commits.take next.reached := by
  by_cases hmoves : call.moves i = true
  · obtain rfl := call.eq_forward hmoves hahead
    refine ⟨_, cursor_move hc .forward, ?_⟩
    rw [store_move, if_pos hmoves, call_move hc, Cursor.move, Cursor.forward_eq]
    rcases c.moveTo_cases a.store.commits c.reached with
      ⟨hnone, hfails⟩ | ⟨commit, hnext, hshows⟩
    · simp [hfails]
    · rw [hshows]
      change _ ++ [commit] = a.store.commits.take (c.reached + 1)
      rw [List.take_add_one, hnext]
      rfl
  · have hother : call.moves i = false := Bool.not_eq_true _ ▸ hmoves
    obtain ⟨later, hlater⟩ := a.commits_call call
    refine ⟨c, cursor_call hc hother, ?_⟩
    rw [if_neg hmoves, List.append_nil, hlater,
      List.take_append_of_le_length (h.stands_at hc).reached_le]

/-- What a cursor has come by in the end it has shown, or it had come by that before. -/
theorem Sound.take_after (h : Sound start a) (hc : a.cursors[i]? = some c)
    {calls : List (Call ρ)} (hahead : ∀ call ∈ calls, call.turns i = false) :
    ∃ last, (a.after calls).cursors[i]? = some last ∧
      a.store.commits.take c.reached ++ shown i a calls =
        (a.after calls).store.commits.take last.reached := by
  induction calls generalizing a c with
  | nil => exact ⟨c, hc, List.append_nil _⟩
  | cons call rest ih =>
    obtain ⟨hcall, hrest⟩ := List.forall_mem_cons.mp hahead
    obtain ⟨next, hnext, hfirst⟩ := h.take_call hc hcall
    obtain ⟨last, hlast, hothers⟩ := ih (h.call call) hnext hrest
    refine ⟨last, hlast, ?_⟩
    rw [shown, ← List.append_assoc, hfirst, hothers]
    rfl

/-- A cursor that goes on comes to the end of the history. -/
theorem reached_after_forwards (hc : a.cursors[i]? = some c) (n : Nat) :
    (a.after (.replicate n (.move i .forward))).store = a.store ∧
      ∀ last, (a.after (.replicate n (.move i .forward))).cursors[i]? = some last →
        min (c.reached + n) a.store.commits.length ≤ last.reached := by
  induction n generalizing a c with
  | zero =>
    refine ⟨rfl, fun last hlast => ?_⟩
    obtain rfl : c = last := Option.some.inj (hc.symm.trans hlast)
    exact Nat.min_le_left _ _
  | succ n ih =>
    obtain ⟨hstore, hreached⟩ := ih (cursor_move hc .forward)
    rw [store_move] at hstore hreached
    refine ⟨hstore, fun last hlast => ?_⟩
    have hlater := hreached last hlast
    rw [Cursor.move, Cursor.forward_eq] at hlater
    rcases c.moveTo_cases a.store.commits c.reached with
      ⟨hnone, hfails⟩ | ⟨commit, hnext, hshows⟩
    · rw [hfails] at hlater
      have hend := List.getElem?_eq_none_iff.mp hnone
      dsimp only at hlater
      omega
    · rw [hshows] at hlater
      change min (c.reached + 1 + n) _ ≤ _ at hlater
      omega

end Forward

section Replays

variable {m : Cursor.Move}

theorem Sound.accepted (h : Sound start a) (tick : Value) (record : ρ) (w : World) :
    let next : Number := .ofNat a.store.commits.length + .ofNat start
    let commit : Commit ρ := ⟨next, Storable.stored record, w.stored⟩
    a.call (.commit tick record w) =
      if tick.sameItem (.number next) then
        (some commit, { a with store.commits := a.store.commits ++ [commit] })
      else (none, a) := by
  dsimp only
  rw [← h.numbered.nextTick]
  split
  · rename_i hnext
    obtain ⟨store, commit, notice, hcommit⟩ := Store.commit_of_next hnext record w
    obtain ⟨rfl, rfl⟩ := Store.of_commit hcommit
    simp [Archive.call, hcommit]
  · rename_i hother
    simp [Archive.call, Store.commit_of_other (Bool.not_eq_true _ ▸ hother) record w]

theorem Sound.complete (h : Sound start a) {calls : List (Call ρ)}
    (hahead : ∀ call ∈ calls, call.turns a.cursors.length = false) :
    let all := (a.after (.replay :: calls)).store.commits
    shown a.cursors.length a (.replay :: calls) <+: all ∧
      ∀ n ≥ all.length, shown a.cursors.length a
        (.replay :: calls ++ .replicate n (.move a.cursors.length .forward)) = all := by
  let b := (a.call .replay).2
  have hnew : b.cursors[a.cursors.length]? = some .new := List.getElem?_concat_length
  have hshown (rest : List (Call ρ)) (hrest : ∀ call ∈ rest, call.turns a.cursors.length = false) :
      ∃ last, (b.after rest).cursors[a.cursors.length]? = some last ∧
        shown a.cursors.length a (.replay :: rest) =
          (b.after rest).store.commits.take last.reached :=
    (h.call .replay).take_after hnew hrest
  obtain ⟨last, hlast, hsofar⟩ := hshown calls hahead
  refine ⟨?_, fun n hn => ?_⟩
  · rw [hsofar]
    exact List.take_prefix _ _
  · let forwards : List (Call ρ) := .replicate n (.move a.cursors.length .forward)
    have hforwards : ∀ call ∈ calls ++ forwards, call.turns a.cursors.length = false := by
      intro call hcall
      rcases List.mem_append.mp hcall with hcall | hcall
      · exact hahead call hcall
      · rw [List.eq_of_mem_replicate hcall]
        rfl
    obtain ⟨final, hfinal, hall⟩ := hshown (calls ++ forwards) hforwards
    obtain ⟨hstore, hreached⟩ := reached_after_forwards hlast n
    rw [after_append] at hfinal hall
    have hend := hreached final hfinal
    change shown _ a (.replay :: (calls ++ forwards)) = _
    rw [hall, hstore]
    apply List.take_of_length_le
    change (b.after calls).store.commits.length ≤ n at hn
    omega

/-- A move that shows nothing leaves everything as it was. -/
theorem call_move_of_fails (hfails : (a.call (.move i m)).1 = none) :
    (a.call (.move i m)).2 = a := by
  cases hc : a.cursors[i]? with
  | none => rw [call_move_of_none hc]
  | some c =>
    rw [call_move hc] at hfails ⊢
    rcases c.move_cases a.store.commits m with hstays | ⟨place, commit, hplace, hshows⟩
    · obtain ⟨hi, rfl⟩ := List.getElem?_eq_some_iff.mp hc
      simp [hstays]
    · rw [hshows] at hfails
      cases hfails

/-- A cursor stands on what its last move has shown. -/
theorem current_of_move {commit : Commit ρ} (hshown : (a.call (.move i m)).1 = some commit) :
    (a.call (.move i m)).2.current i = some commit := by
  cases hc : a.cursors[i]? with
  | none =>
    rw [call_move_of_none hc] at hshown
    cases hshown
  | some c =>
    rw [current_eq (cursor_move hc m), store_move]
    rw [call_move hc] at hshown
    exact c.current_move m hshown

theorem Sound.replays (h : Sound start a) : Replays start a where
  accepted := h.accepted
  numbered _ _ hc := ⟨h.numbered.tick hc, h.numbered.toInt?_tick hc⟩
  ordered := h.numbered.pairwise_tick
  indexed hlimit i hi tick n htick := by
    rw [call_move (List.getElem?_eq_getElem hi), h.numbered.commit?_eq_seek hlimit htick]
    rfl
  failing _ _ hfails := call_move_of_fails hfails
  showing _ _ _ hshown := current_of_move hshown
  steady _ hi _ hothers := h.current_after hi hothers
  back i := h.cancel fun c hc hshows later => (h.stands_at hc).forward_of_back later hshows
  forward i hsome := h.cancel fun c hc hshows later => by
    rw [current_eq hc] at hsome
    exact ⟨hsome, (h.stands_at hc).back_of_forward later hsome hshows⟩
  complete _ hahead := h.complete hahead

/-- Whatever is asked of a history and of the cursors over it, in whatever order, a cursor
shows what is looked up, and shows it again when it comes back; what is committed is numbered
without gaps, and all of it is shown by a cursor that goes on and on. -/
theorem history_is_replayed {w : World} {s : Store ρ} (h : Store.ofWorld w = .ok s) :
    ∃ start : Nat, w.time.toInt? = some (start : Int) ∧
      ∀ calls : List (Call ρ), Replays start ((Archive.mk s []).after calls) := by
  obtain ⟨start, hbegins, hnumbered, -⟩ := Store.numbered_of_ofWorld h
  have hsound : Sound start (Archive.mk s []) := ⟨hnumbered, fun _ hc => (List.not_mem_nil hc).elim⟩
  exact ⟨start, hbegins, fun calls => (hsound.after calls).replays⟩

def evening : World := { (default : World) with timeStep := .number 20 }

def idleReport : TickReport := ⟨[], [], [], [], none, ⟨0, 0, 0, 0, 0, 0⟩⟩

/-- Two ticks of the evening are committed and another one is refused, while a cursor goes
forward. -/
def watch : List (Call TickReport) :=
  [.replay, .commit 20 idleReport evening, .move 0 .forward, .commit 20 idleReport evening,
    .commit 21 idleReport evening, .move 0 .forward]

theorem evening_is_replayed :
    ∃ s : Store TickReport, Store.ofWorld evening = .ok s ∧
      Replays 20 ((Archive.mk s []).after watch) := by
  have htime : evening.timeStep = .number (.ofNat 20) := rfl
  have hwhole : (Number.ofNat 20).toInt? = some ((20 : Nat) : Int) :=
    Number.toInt?_ofNat (by decide)
  have hfault : evening.fault? = none := by
    have hclock : evening.timeFault? = none := by
      simp [World.timeFault?, htime, Value.number?, hwhole]
    rw [World.fault?, hclock]
    rfl
  have hs : @Store.ofWorld TickReport evening = .ok ⟨evening.stored, []⟩ := by
    rw [Store.ofWorld, hfault]
  obtain ⟨start, hbegins, hreplays⟩ := history_is_replayed hs
  rw [World.time_of_timeStep htime, hwhole] at hbegins
  obtain rfl : 20 = start := Int.ofNat_inj.mp (Option.some.inj hbegins)
  exact ⟨_, hs, hreplays watch⟩

end Replays

end Archive

end Harbormaster
