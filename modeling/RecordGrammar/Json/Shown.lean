import RecordGrammar.Decimal.Notation
import RecordGrammar.Json.Basic
import RecordGrammar.Text.Quoted

/-!
# JSON values in messages

Messages show a value with quoted texts, `True`, `False` and `None`, and its parts in order.
-/

namespace RecordGrammar.Json

mutual

/-- The text of a value inside a message. -/
def shown : Json → String
  | null => "None"
  | bool true => "True"
  | bool false => "False"
  | int n => toString n
  | float x => Decimal.render Decimal.shown x
  | str s => Text.quoted s
  | arr es => "[" ++ ", ".intercalate (shownElements es) ++ "]"
  | obj fs => "\x7b" ++ ", ".intercalate (shownFields fs) ++ "\x7d"

/-- The texts of the elements of an array. -/
def shownElements : List Json → List String
  | [] => []
  | v :: es => shown v :: shownElements es

/-- The texts of the fields of an object. -/
def shownFields : List (String × Json) → List String
  | [] => []
  | (k, v) :: fs => (Text.quoted k ++ ": " ++ shown v) :: shownFields fs

end

/-- A row of values between parentheses; a single one has a comma behind it. -/
def shownRow : List Json → String
  | [v] => "(" ++ shown v ++ ",)"
  | vs => "(" ++ ", ".intercalate (shownElements vs) ++ ")"

end RecordGrammar.Json
