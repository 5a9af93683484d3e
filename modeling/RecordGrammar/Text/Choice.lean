/-!
# Choosing a text
-/

namespace RecordGrammar.Text

/-- The first text that is there and not empty. -/
def firstNonEmpty (candidates : List (Option String)) (default : String) : String :=
  ((candidates.filterMap id).find? (· ≠ "")).getD default

end RecordGrammar.Text
