import RecordGrammar.Grammar.Error
import RecordGrammar.Grammar.Token
import RecordGrammar.Notice
import RecordGrammar.Text.Split

/-!
# String formats

A format is a raw grammar fragment behind the mark `gbnf:`, one of seven names, or a pattern in which
placeholder characters stand for classes of characters and all others for themselves. Any other text
means nothing: the string is then bounded like one without a format, or refused.
-/

namespace RecordGrammar

inductive NamedFormat where
  | alpha
  | alphaSpace
  | alphanumeric
  | lowercase
  | uppercase
  | numeric
  | hex
deriving DecidableEq

namespace NamedFormat

def all : List NamedFormat := [alpha, alphaSpace, alphanumeric, lowercase, uppercase, numeric, hex]

def name : NamedFormat → String
  | alpha => "alpha"
  | alphaSpace => "alpha-space"
  | alphanumeric => "alphanumeric"
  | lowercase => "lowercase"
  | uppercase => "uppercase"
  | numeric => "numeric"
  | hex => "hex"

def ofName? (s : String) : Option NamedFormat := all.find? (·.name == s)

/-- The characters that the string may hold. -/
def charClass : NamedFormat → CharClass
  | alpha => .ofRanges [('a', 'z'), ('A', 'Z')]
  | alphaSpace =>
    { items := (CharClass.ofRanges [('a', 'z'), ('A', 'Z')]).items ++ [.one { char := ' ' }] }
  | alphanumeric => .ofRanges [('a', 'z'), ('A', 'Z'), ('0', '9')]
  | lowercase => .ofRanges [('a', 'z')]
  | uppercase => .ofRanges [('A', 'Z')]
  | numeric => .digit
  | hex => .hexDigit

def description : NamedFormat → String
  | alpha => "letters only"
  | alphaSpace => "letters and spaces only"
  | alphanumeric => "letters and digits only"
  | lowercase => "lowercase letters only"
  | uppercase => "uppercase letters only"
  | numeric => "digits only"
  | hex => "hexadecimal digits only"

/-- One character of the class or more, in quotes. -/
def expr (f : NamedFormat) : Expr :=
  .row .spaced [.quote, .repeated (.cls f.charClass) .some, .quote, .space]

end NamedFormat

/-- What a placeholder character stands for; nothing, if the character is none. -/
def placeholder? : Char → Option Expr
  | '#' | '9' => some (.cls .digit)
  | 'A' => some (.span 'A' 'Z')
  | 'a' => some (.span 'a' 'z')
  | '*' => some (.cls (.ofRanges [('a', 'z'), ('A', 'Z'), ('0', '9')]))
  | '?' => some (.rule "char")
  | _ => none

/-- What one character of a pattern stands for. -/
def patternChar (c : Char) : Expr := (placeholder? c).getD (.literal (String.singleton c))

/-- A string that follows the pattern character by character, in quotes. -/
def patternExpr (pattern : String) : Expr :=
  .row .spaced (.quote :: pattern.toList.map patternChar ++ [.quote, .space])

inductive StringFormat where
  | raw (fragment : String)
  | named (format : NamedFormat)
  | pattern (text : String)
  | unknown (text : String)
deriving DecidableEq

namespace StringFormat

def rawMark : String := "gbnf:"

/-- Whether the text is a raw fragment behind its mark. -/
def isRaw (s : String) : Bool := (Text.dropStart? rawMark s).isSome

/-- Whether the text holds a placeholder character. -/
def hasPlaceholder (s : String) : Bool := s.toList.any fun c => (placeholder? c).isSome

def ofString (s : String) : StringFormat :=
  match Text.dropStart? rawMark s with
  | some fragment => raw fragment
  | none =>
    match NamedFormat.ofName? s with
    | some f => named f
    | none => if hasPlaceholder s then pattern s else unknown s

/-- What a string of this format holds, in words. -/
def description : StringFormat → String
  | raw _ | unknown _ => "string value"
  | named f => f.description
  | pattern s => "value in format " ++ s

/-- The expression of a format. One that means nothing is an error if the settings are strict about
formats, and otherwise gets the default bounds and a notice. -/
def compile (settings : GrammarSettings) : StringFormat → Except GrammarError (Expr × List Notice)
  | raw fragment => .ok (.raw fragment, [])
  | named f => .ok (f.expr, [])
  | pattern s => .ok (patternExpr s, [])
  | unknown s =>
    if settings.strictFormats then .error (.unknownFormat s)
    else .ok (boundedStringExpr settings.lengths.min settings.lengths.max, [.unknownFormat (Text.quoted s)])

end StringFormat

end RecordGrammar
