import RecordGrammar.Text.Blank

/-!
# Segments of rule names

A field's name becomes a piece of a rule name: in lower case, with every run of other characters
than letters, digits and dashes turned into one dash, and without dashes at the ends.
-/

namespace RecordGrammar.Segment

/-- A character in lower case. Of the letters beyond ASCII only two have a lower case that holds an
ASCII letter; the others are left alone, since no segment can hold them. -/
def lower (c : Char) : List Char :=
  if c = '\u212a' then ['k']
  else if c = '\u0130' then ['i', '\u0307']
  else [c.toLower]

/-- Whether a rule name may hold the character. -/
def isSafe (c : Char) : Bool := ('a' ≤ c && c ≤ 'z') || ('0' ≤ c && c ≤ '9') || c = '-'

/-- Turns every run of unsafe characters into one dash. `inRun` says that one has just been written
for a run. -/
def dashRuns (inRun : Bool) : List Char → List Char
  | [] => []
  | c :: cs =>
    if isSafe c then c :: dashRuns false cs
    else if inRun then dashRuns true cs
    else '-' :: dashRuns true cs

/-- The segment of a name, as characters; `field` if nothing of the name is left. -/
def chars (name : List Char) : List Char :=
  match Text.trimWhile (· = '-') (dashRuns false (name.flatMap lower)) with
  | [] => ['f', 'i', 'e', 'l', 'd']
  | cs => cs

def ofName (name : String) : String := String.ofList (chars name.toList)

example : ofName "Unit Price (€)" = "unit-price" := by decide

end RecordGrammar.Segment
