import Harbormaster.Condition.Evaluation
import Harbormaster.Proofs.World.Agreement

/-!
What operands read. An operand reads the path that it names, an expression those among its
tokens, and a condition what its sides read; worlds in which these paths are read alike give
it one value, or one failure. The steps of the evaluator are compared all at once, by
induction on the number of tokens: each comes to the same in both worlds and leaves tokens
whose paths are among those that are read alike.
-/

namespace Harbormaster

/-- Two worlds in which texts are read alike, unless they spell other paths than those of a
kind. -/
def World.ReadAlike (on : Path → Prop) (u w : World) : Prop :=
  ∀ text, Covers on text → u.read text = w.read text

theorem World.Agrees.readAlike {on : Path → Prop} {u w : World} (h : Agrees on u w) :
    ReadAlike on u w := fun _ hon => h.read hon

namespace Expression

def Token.path? : Token → Option Path
  | .path text => Path.parse? text
  | _ => none

def reads (source : String) : List Path :=
  match tokens source with
  | .ok tokens => tokens.filterMap Token.path?
  | .error _ => []

def Covered (on : Path → Prop) (tokens : List Token) : Prop :=
  ∀ token ∈ tokens, ∀ path, token.path? = some path → on path

variable {on : Path → Prop} {u w : World} {source : String}

theorem Covered.tail {token : Token} {tokens : List Token} (h : Covered on (token :: tokens)) :
    Covered on tokens :=
  fun other hother => h other (List.mem_cons_of_mem _ hother)

theorem Covered.path {text : String} {tokens : List Token}
    (h : Covered on (.path text :: tokens)) : World.Covers on text :=
  h _ List.mem_cons_self

structure Concur (on : Path → Prop) {p : List Token → Prop}
    (x y : Except Failure (Number × { rest : List Token // p rest })) : Prop where
  same : x = y
  covered : ∀ value rest, x = .ok (value, rest) → Covered on rest.val

theorem Concur.error {p : List Token → Prop} (failure : Failure) :
    Concur on (p := p) (.error failure) (.error failure) :=
  ⟨rfl, fun _ _ h => nomatch h⟩

theorem Concur.ok {p : List Token → Prop} (value : Number) {rest : { rest : List Token // p rest }}
    (h : Covered on rest.val) : Concur on (.ok (value, rest)) (.ok (value, rest)) := by
  refine ⟨rfl, fun _ _ heq => ?_⟩
  cases heq
  exact h

structure ConcurBelow (on : Path → Prop) (u w : World) (source : String) (bound : Nat) :
    Prop where
  sum : ∀ {tokens}, tokens.length < bound → Covered on tokens →
    Concur on (evalSum u source tokens) (evalSum w source tokens)
  sumRest : ∀ {value tokens}, tokens.length < bound → Covered on tokens →
    Concur on (evalSumRest u source value tokens) (evalSumRest w source value tokens)
  product : ∀ {tokens}, tokens.length < bound → Covered on tokens →
    Concur on (evalProduct u source tokens) (evalProduct w source tokens)
  productRest : ∀ {value tokens}, tokens.length < bound → Covered on tokens →
    Concur on (evalProductRest u source value tokens) (evalProductRest w source value tokens)
  factor : ∀ {tokens}, tokens.length < bound → Covered on tokens →
    Concur on (evalFactor u source tokens) (evalFactor w source tokens)

theorem operand_congr (halike : World.ReadAlike on u w) {text : String}
    (hon : World.Covers on text) : operand u text = operand w text := by
  unfold operand
  rw [halike text hon]

namespace ConcurBelow

variable {tokens : List Token} {value : Number} (halike : World.ReadAlike on u w)
  (hbelow : ConcurBelow on u w source tokens.length) (hcovered : Covered on tokens)

include hbelow hcovered

include halike in
theorem evalFactor : Concur on (evalFactor u source tokens) (evalFactor w source tokens) := by
  unfold Expression.evalFactor
  match tokens with
  | [] => exact .error _
  | .number n :: tail => exact .ok n hcovered.tail
  | .path text :: tail =>
    dsimp only
    rw [operand_congr halike hcovered.path]
    cases operand w text with
    | error failure => exact .error failure
    | ok n => exact .ok n hcovered.tail
  | .operation .minus :: tail =>
    have hfactor := hbelow.factor (Nat.lt_succ_self _) hcovered.tail
    dsimp only
    rw [← hfactor.same]
    cases hx : Expression.evalFactor u source tail with
    | error failure => exact .error failure
    | ok found => exact .ok _ (hfactor.covered _ _ hx)
  | .operation .plus :: tail =>
    have hfactor := hbelow.factor (Nat.lt_succ_self _) hcovered.tail
    dsimp only
    rw [← hfactor.same]
    cases hx : Expression.evalFactor u source tail with
    | error failure => exact .error failure
    | ok found => exact .ok _ (hfactor.covered _ _ hx)
  | .operation .times :: tail => exact .error _
  | .operation .dividedBy :: tail => exact .error _
  | .opening :: tail =>
    have hsum := hbelow.sum (Nat.lt_succ_self _) hcovered.tail
    dsimp only
    rw [← hsum.same]
    cases hx : Expression.evalSum u source tail with
    | error failure => exact .error failure
    | ok found =>
      have hrest := hsum.covered _ _ hx
      obtain ⟨n, rest, hfewer⟩ := found
      dsimp only at hrest ⊢
      match rest with
      | .closing :: rest => exact .ok n hrest.tail
      | [] | .number _ :: _ | .path _ :: _ | .operation _ :: _ | .opening :: _ => exact .error _
  | .closing :: tail => exact .error _

theorem evalProductRest : Concur on (evalProductRest u source value tokens)
    (evalProductRest w source value tokens) := by
  unfold Expression.evalProductRest
  match tokens with
  | .operation .times :: tail =>
    have hfactor := hbelow.factor (Nat.lt_succ_self _) hcovered.tail
    dsimp only
    rw [← hfactor.same]
    cases hx : Expression.evalFactor u source tail with
    | error failure => exact .error failure
    | ok found =>
      obtain ⟨n, rest⟩ := found
      have hrest := @hbelow.productRest (value * n) _ (Nat.lt_succ_of_lt rest.2)
        (hfactor.covered _ _ hx)
      dsimp only
      rw [← hrest.same]
      cases hy : Expression.evalProductRest u source (value * n) rest.val with
      | error failure => exact .error failure
      | ok found => exact .ok _ (hrest.covered _ _ hy)
  | .operation .dividedBy :: tail =>
    have hfactor := hbelow.factor (Nat.lt_succ_self _) hcovered.tail
    dsimp only
    rw [← hfactor.same]
    cases hx : Expression.evalFactor u source tail with
    | error failure => exact .error failure
    | ok found =>
      obtain ⟨n, rest⟩ := found
      have hrest := @hbelow.productRest (value / n) _ (Nat.lt_succ_of_lt rest.2)
        (hfactor.covered _ _ hx)
      dsimp only
      rw [← hrest.same]
      split
      · exact .error _
      · cases hy : Expression.evalProductRest u source (value / n) rest.val with
        | error failure => exact .error failure
        | ok found => exact .ok _ (hrest.covered _ _ hy)
  | [] | .number _ :: _ | .path _ :: _ | .opening :: _ | .closing :: _ | .operation .plus :: _
  | .operation .minus :: _ => exact .ok _ hcovered

include halike in
theorem evalProduct : Concur on (evalProduct u source tokens) (evalProduct w source tokens) := by
  unfold Expression.evalProduct
  have hfactor := hbelow.evalFactor halike hcovered
  rw [← hfactor.same]
  cases hx : Expression.evalFactor u source tokens with
  | error failure => exact .error failure
  | ok found =>
    obtain ⟨n, rest⟩ := found
    have hrest := @hbelow.productRest n _ rest.2 (hfactor.covered _ _ hx)
    dsimp only
    rw [← hrest.same]
    cases hy : Expression.evalProductRest u source n rest.val with
    | error failure => exact .error failure
    | ok found => exact .ok _ (hrest.covered _ _ hy)

theorem evalSumRest : Concur on (evalSumRest u source value tokens)
    (evalSumRest w source value tokens) := by
  unfold Expression.evalSumRest
  match tokens with
  | .operation .plus :: tail =>
    have hproduct := hbelow.product (Nat.lt_succ_self _) hcovered.tail
    dsimp only
    rw [← hproduct.same]
    cases hx : Expression.evalProduct u source tail with
    | error failure => exact .error failure
    | ok found =>
      obtain ⟨n, rest⟩ := found
      have hrest := @hbelow.sumRest (value + n) _ (Nat.lt_succ_of_lt rest.2)
        (hproduct.covered _ _ hx)
      dsimp only
      rw [← hrest.same]
      cases hy : Expression.evalSumRest u source (value + n) rest.val with
      | error failure => exact .error failure
      | ok found => exact .ok _ (hrest.covered _ _ hy)
  | .operation .minus :: tail =>
    have hproduct := hbelow.product (Nat.lt_succ_self _) hcovered.tail
    dsimp only
    rw [← hproduct.same]
    cases hx : Expression.evalProduct u source tail with
    | error failure => exact .error failure
    | ok found =>
      obtain ⟨n, rest⟩ := found
      have hrest := @hbelow.sumRest (value - n) _ (Nat.lt_succ_of_lt rest.2)
        (hproduct.covered _ _ hx)
      dsimp only
      rw [← hrest.same]
      cases hy : Expression.evalSumRest u source (value - n) rest.val with
      | error failure => exact .error failure
      | ok found => exact .ok _ (hrest.covered _ _ hy)
  | [] | .number _ :: _ | .path _ :: _ | .opening :: _ | .closing :: _ | .operation .times :: _
  | .operation .dividedBy :: _ => exact .ok _ hcovered

include halike in
theorem evalSum : Concur on (evalSum u source tokens) (evalSum w source tokens) := by
  unfold Expression.evalSum
  have hproduct := hbelow.evalProduct halike hcovered
  rw [← hproduct.same]
  cases hx : Expression.evalProduct u source tokens with
  | error failure => exact .error failure
  | ok found =>
    obtain ⟨n, rest⟩ := found
    have hrest := @hbelow.sumRest n _ rest.2 (hproduct.covered _ _ hx)
    dsimp only
    rw [← hrest.same]
    cases hy : Expression.evalSumRest u source n rest.val with
    | error failure => exact .error failure
    | ok found => exact .ok _ (hrest.covered _ _ hy)

end ConcurBelow

theorem concurBelow (halike : World.ReadAlike on u w) (source : String) (bound : Nat) :
    ConcurBelow on u w source bound := by
  induction bound using Nat.strongRecOn with
  | ind bound ih =>
    exact ⟨fun hfewer => (ih _ hfewer).evalSum halike, fun hfewer => (ih _ hfewer).evalSumRest,
      fun hfewer => (ih _ hfewer).evalProduct halike, fun hfewer => (ih _ hfewer).evalProductRest,
      fun hfewer => (ih _ hfewer).evalFactor halike⟩

/-- The value of an expression depends on the paths that it reads only. -/
theorem evaluate_congr (halike : World.ReadAlike on u w) (hon : ∀ path ∈ reads source, on path) :
    evaluate source u = evaluate source w := by
  unfold reads at hon
  unfold evaluate
  cases htokens : tokens source with
  | error failure => rfl
  | ok tokens =>
    rw [htokens] at hon
    have hcovered : Covered on tokens := fun token htoken path hpath =>
      hon path (List.mem_filterMap.mpr ⟨token, htoken, hpath⟩)
    have hsum := (concurBelow halike source tokens.length).evalSum halike hcovered
    cases tokens with
    | nil => rfl
    | cons first rest =>
      simp only [evalTokens]
      rw [hsum.same]

end Expression

variable {on : Path → Prop} {u w : World}

def Value.reads : Value → List Path
  | .text s =>
    match Expression.body? s with
    | some body => Expression.reads (Text.trim body)
    | none => (Path.parse? s).toList
  | _ => []

theorem resolve_congr (halike : World.ReadAlike on u w) {operand : Value}
    (hon : ∀ path ∈ operand.reads, on path) : u.resolve operand = w.resolve operand := by
  cases operand with
  | text s =>
    unfold Value.reads at hon
    unfold World.resolve
    dsimp only at hon ⊢
    split
    · rename_i body hbody
      rw [hbody] at hon
      rw [Expression.evaluate_congr halike hon]
    · rename_i hbody
      rw [hbody] at hon
      split
      · refine halike s fun path hpath => hon path ?_
        rw [hpath]
        exact List.mem_singleton_self path
      · rfl
  | missing | absent | boolean | number | list | record | native | fallback => rfl

namespace Condition

def reads (c : Condition) : List Path := c.left.reads ++ c.right.reads

theorem evaluate_congr (hagree : World.Agrees on u w) {c : Condition}
    (hon : ∀ path ∈ c.reads, on path) : c.evaluate u = c.evaluate w := by
  have halike := hagree.readAlike
  have hleft := resolve_congr halike fun path hpath => hon path (List.mem_append_left _ hpath)
  have hright := resolve_congr halike fun path hpath => hon path (List.mem_append_right _ hpath)
  have hsources : c.eventSources u = c.eventSources w := by
    have hevent : u.event? = w.event? := by
      funext eventType
      simp only [World.event?, hagree.events]
    unfold eventSources sourceOf?
    rw [hevent]
  unfold evaluate failedEvaluation
  rw [hleft, hright, hsources]

end Condition

/-- What a list of conditions comes to depends on the paths that they read only. -/
theorem evaluateConditions_congr (hagree : World.Agrees on u w) {conditions : List Condition}
    (hon : ∀ c ∈ conditions, ∀ path ∈ c.reads, on path) (logic : Logic) :
    evaluateConditions conditions logic u = evaluateConditions conditions logic w := by
  have hsame : conditions.map (·.evaluate u) = conditions.map (·.evaluate w) :=
    List.map_congr_left fun c hc => Condition.evaluate_congr hagree (hon c hc)
  unfold evaluateConditions
  rw [hsame]

end Harbormaster
