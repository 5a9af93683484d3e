import RecordGrammar.Decimal.Notation
import RecordGrammar.Json.Basic
import RecordGrammar.Text.Quoted

/-!
# JSON texts

String literals in two alphabets, and whole values laid out over several lines.
-/

namespace RecordGrammar.Json

def escapeLetter? : Char → Option Char
  | '"' => some '"'
  | '\\' => some '\\'
  | '\x08' => some 'b'
  | '\x0c' => some 'f'
  | '\n' => some 'n'
  | '\r' => some 'r'
  | '\t' => some 't'
  | _ => none

/-- A UTF-16 unit as an escape of four digits. -/
def unitEscape (n : Nat) : List Char := '\\' :: 'u' :: Text.hexDigits 4 n

/-- One character of a string literal. Only what JSON forbids to stand for itself is escaped. -/
def literalChar (c : Char) : List Char :=
  match escapeLetter? c with
  | some l => ['\\', l]
  | none => if c.toNat < 0x20 then unitEscape c.toNat else [c]

/-- The string literal of a text, as characters. -/
def literalChars (s : List Char) : List Char := '"' :: s.flatMap literalChar ++ ['"']

def literal (s : String) : String := String.ofList (literalChars s.toList)

/-- One character of a string literal that keeps to printable ASCII. A character beyond the basic
plane takes two units. -/
def asciiLiteralChar (c : Char) : List Char :=
  match escapeLetter? c with
  | some l => ['\\', l]
  | none =>
    let n := c.toNat
    if 0x20 ≤ n && n < 0x7F then [c]
    else if n < 0x10000 then unitEscape n
    else unitEscape (0xD800 + (n - 0x10000) / 0x400) ++ unitEscape (0xDC00 + (n - 0x10000) % 0x400)

/-- The string literal of a text in printable ASCII. -/
def asciiLiteral (s : String) : String :=
  String.ofList ('"' :: s.toList.flatMap asciiLiteralChar ++ ['"'])

/-- Parts on lines of their own between two brackets, or the bare brackets if there are none. -/
def block (opening closing indent : String) (parts : List String) : String :=
  if parts.isEmpty then opening ++ closing
  else
    let inner := "\n" ++ indent ++ "  "
    opening ++ inner ++ ("," ++ inner).intercalate parts ++ "\n" ++ indent ++ closing

mutual

/-- A value over several lines, two blanks deeper at each level, in printable ASCII. -/
def pretty (indent : String) : Json → String
  | null => "null"
  | bool true => "true"
  | bool false => "false"
  | int n => toString n
  | float x => Decimal.render Decimal.inJson x
  | str s => asciiLiteral s
  | arr es => block "[" "]" indent (prettyElements (indent ++ "  ") es)
  | obj fs => block "\x7b" "\x7d" indent (prettyFields (indent ++ "  ") fs)

/-- The texts of the elements of an array. -/
def prettyElements (indent : String) : List Json → List String
  | [] => []
  | v :: es => pretty indent v :: prettyElements indent es

/-- The texts of the fields of an object. -/
def prettyFields (indent : String) : List (String × Json) → List String
  | [] => []
  | (k, v) :: fs => (asciiLiteral k ++ ": " ++ pretty indent v) :: prettyFields indent fs

end

end RecordGrammar.Json
