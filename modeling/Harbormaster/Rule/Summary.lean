import Harbormaster.Rule.Basic

/-!
The overview of a rule set: one line a rule, in the order of the set.
-/

namespace Harbormaster

structure RuleSummary where
  id : Value
  priority : Value
  logic : Value
  conditions : Value
  actions : Value
  category : Value
  tags : List Value

namespace RuleSummary

/-- Category and tags come from the metadata, if they are there in good form. -/
def ofRule (rule : Rule) : RuleSummary :=
  { id := rule.id
    priority := rule.priority
    logic := rule.logic
    conditions := .number (.ofNat rule.conditions.length)
    actions := .number (.ofNat rule.actions.length)
    category := .ofOption ((rule.metadata.member "category").text?.map .text)
    tags := ((rule.metadata.member "tags").texts?.getD []).map .text }

def line (s : RuleSummary) : String :=
  let tags := if s.tags.isEmpty then "" else " [" ++ Value.joinItems ", " s.tags ++ "]"
  s.id.plainText ++ " (priority " ++ s.priority.plainText ++ ", " ++ s.logic.plainText ++ ", " ++
    s.conditions.plainText ++ " condition(s), " ++ s.actions.plainText ++ " action(s)) " ++
    (s.category.given?.getD "uncategorized").plainText ++ tags

/-- The lines of an overview. -/
def overview (summaries : List RuleSummary) : List String :=
  (summaries.length.repr ++ " rule(s):") :: summaries.map fun s => "  " ++ s.line

end RuleSummary

def RuleSet.summaries (s : RuleSet) : List RuleSummary := s.rules.map RuleSummary.ofRule

end Harbormaster
