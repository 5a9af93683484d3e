import RecordGrammar.Grammar.Token

/-!
# Free text before the value

A text between two markers may stand before the value. It must not hold the end marker, yet may hold
`<`. So a `<` is followed along the end marker, one character at a time: at every place the text
either goes on with the marker's next character or leaves it with another one, which must not be
`<` again. The marker's last character is never offered.
-/

namespace RecordGrammar

open RecordGrammar.Expr

def leaveMarker (c : Char) : Expr := cls (.noneOf [c, '<'])

/-- What may follow a `<` where the rest of the end marker is `tail`. -/
def divergeFrom : List Char → Expr
  | [] => empty
  | [c] => leaveMarker c
  | c :: tail => group (oneOf .spaced [leaveMarker c, row .spaced [literal (String.singleton c), divergeFrom tail]])

/-- A `<` that does not start the end marker, with what shows that it does not. -/
def safeLtExpr (m : EndMarker) : Expr := row .spaced [word "<", divergeFrom m.tail]

/-- The rules for the text between the markers, which has at most `maxLength` units. -/
def thinkingRules (m : EndMarker) (maxLength : Int) : List (String × Expr) :=
  [("think-safe-lt", safeLtExpr m),
   ("think-char", oneOf .spaced [cls (.noneOf ['<']), rule "think-safe-lt"]),
   ("think-content", repeated (rule "think-char") (.between 0 maxLength))]

/-- The value, or a text between the markers and then the value. -/
def thinkingEntry (start : String) (stop : String) : Expr :=
  oneOf .spaced [rule "root",
    row .spaced [literal start, rule "think-content", literal stop, space, rule "root"]]

end RecordGrammar
