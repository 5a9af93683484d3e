import RecordGrammar.Grammar.Expr

/-!
# Rule tables

The rules of a grammar in the order in which they were added. No name is given twice.
-/

namespace RecordGrammar

/-- A rule: its name and its body. -/
abbrev Rule := String × Expr

/-- The rules of a grammar, in order. -/
structure RuleTable where
  rules : List Rule := []
deriving DecidableEq

namespace RuleTable

def size (t : RuleTable) : Nat := t.rules.length

/-- The names of the rules, in order. -/
def names (t : RuleTable) : List String := t.rules.map (·.1)

/-- Whether there is a rule of this name. -/
def contains (t : RuleTable) (name : String) : Bool := t.rules.any (·.1 == name)

/-- The body of the rule of this name. -/
def body? (t : RuleTable) (name : String) : Option Expr := t.rules.lookup name

/-- The table with a rule at the end. -/
def push (t : RuleTable) (name : String) (body : Expr) : RuleTable := ⟨t.rules ++ [(name, body)]⟩

/-- The table with a new rule at the end; nothing, if the name is taken. -/
def insert? (t : RuleTable) (name : String) (body : Expr) : Option RuleTable :=
  if t.contains name then none else some (t.push name body)

def ruleText (r : Rule) : String := r.1 ++ " ::= " ++ r.2.render

/-- The text of the grammar, a rule to a line. -/
def render (t : RuleTable) : String := "\n".intercalate (t.rules.map ruleText)

@[simp] theorem names_push (t : RuleTable) (name : String) (body : Expr) :
    (t.push name body).names = t.names ++ [name] := by simp [names, push]

theorem contains_iff {t : RuleTable} {name : String} : t.contains name = true ↔ name ∈ t.names := by
  simp [contains, names]

end RuleTable

end RecordGrammar
