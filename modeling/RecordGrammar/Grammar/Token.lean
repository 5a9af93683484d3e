import RecordGrammar.Grammar.Expr
import RecordGrammar.Json.Writer
import RecordGrammar.Settings

/-!
# Expressions of JSON tokens

What the grammar of any shape uses: the white space between tokens, the characters of a string, and
the values that are written in one way only. Each value takes the white space behind it along.
-/

namespace RecordGrammar

namespace Expr

def space : Expr := rule "space"

/-- The quote at either end of a JSON string. -/
def quote : Expr := literal "\""

/-- A punctuation mark or a word, as it stands. -/
def word (s : String) : Expr := literal s

/-- The JSON string of a text, as a literal. -/
def jsonText (s : String) : Expr := literal (Json.literal s)

/-- Exactly one of the JSON strings of these texts. -/
def anyText (values : List String) : Expr :=
  row .spaced [group (oneOf .tight (values.map jsonText)), space]

/-- A digit of the class, `n` times. -/
def times (k : CharClass) (n : Nat) : Expr := repeated (cls k) (.exactly n)

/-- A number from `min` to `max` of digits. -/
def digits (min max : Nat) : Expr := repeated (cls .digit) (.between min max)

def span (first last : Char) : Expr := cls (.ofRanges [(first, last)])

/-- A class of the characters of a text. -/
def amongst (s : String) : Expr := cls (.ofChars s.toList)

end Expr

open RecordGrammar.Expr

/-- The body of the rule `space`: nothing, a blank, or a line break and at most twenty blanks or
tabs. -/
def spaceBody : Expr :=
  oneOf .spaced [empty, word " ", row .spaced [word "\n", repeated (amongst " \t") (.between 0 20)]]

/-- The body of the rule `char`: a character of a JSON string. Quote, backslash, control characters
and the delimiters of placeholders stand only as escapes, if at all. -/
def charBody (d : Delimiters) : Expr :=
  let excluded : CharClass := {
    negated := true
    items := [.one { char := '"' }, .one { char := '\\' }, .one { char := '\x7f', spelling := .code },
      .range { char := '\x00', spelling := .code } { char := '\x1f', spelling := .code },
      .one { char := d.opening }, .one { char := d.closing }] }
  oneOf .spaced [cls excluded,
    row .spaced [amongst "\\", group (oneOf .spaced [amongst "\"\\bfnrt", row .spaced [word "u", times .hexDigit 4]])]]

/-- An integer of at most sixteen digits; the sign belongs to the zero alone. -/
def integerExpr : Expr :=
  row .spaced [group (oneOf .spaced [row .spaced [maybe (word "-"), amongst "0"], row .spaced [span '1' '9', digits 0 15]]), space]

/-- A decimal number with at most sixteen digits before the point and fifteen behind it. -/
def decimalExpr : Expr :=
  row .spaced [
    group (row .spaced [maybe (word "-"),
      group (oneOf .spaced [amongst "0", row .spaced [span '1' '9', digits 0 15]]),
      maybe (group (row .spaced [word ".", digits 1 15]))]),
    space]

def booleanExpr : Expr := row .spaced [group (oneOf .spaced [word "true", word "false"]), space]

/-- Two digits, the first one of a class. -/
def twoDigits (first : Expr) (second : Expr := cls .digit) : Expr := row .tight [first, second]

def hourExpr : Expr := group (oneOf .tight [twoDigits (amongst "01"), twoDigits (amongst "2") (span '0' '3')])

def sixtyExpr : Expr := twoDigits (span '0' '5')

/-- A date and time of day with its offset, in quotes. -/
def dateExpr : Expr :=
  row .spaced [quote, times .digit 4, word "-",
    group (oneOf .tight [twoDigits (amongst "0") (span '1' '9'), twoDigits (amongst "1") (span '0' '2')]),
    word "-",
    group (oneOf .tight [twoDigits (amongst "0") (span '1' '9'), twoDigits (amongst "12"),
      twoDigits (amongst "3") (amongst "01")]),
    word "T", hourExpr, word ":", sixtyExpr, word ":", sixtyExpr,
    maybe (group (row .spaced [word ".", times .digit 3])),
    group (oneOf .tight [word "Z",
      group (row .spaced [cls { items := [.one { char := '+' }, .one { char := '-', spelling := .bare }] },
        hourExpr, word ":", sixtyExpr])]),
    quote, space]

/-- A globally unique identifier in its canonical form, in quotes. -/
def guidExpr : Expr :=
  row .spaced [quote, times .hexDigit 8, word "-", times .hexDigit 4, word "-", times .hexDigit 4,
    word "-", times .hexDigit 4, word "-", times .hexDigit 12, quote, space]

/-- A string of `min` to `max` characters, in quotes. -/
def boundedStringExpr (min max : Nat) : Expr :=
  row .spaced [quote, repeated (rule "char") (.between min max), quote, space]

end RecordGrammar
