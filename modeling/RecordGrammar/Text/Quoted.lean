import RecordGrammar.Text.Printable

/-!
# Quoted text

The form in which messages show a text: between two equal marks, with a backslash before whatever
could be misread.
-/

namespace RecordGrammar.Text

def apostrophe : Char := Char.ofNat 0x27

/-- The mark around a quoted text: an apostrophe, unless the text holds one and no double quote. -/
def quoteMark (s : List Char) : Char :=
  if s.contains apostrophe && !s.contains '"' then '"' else apostrophe

/-- The digit of value `n`, in lower case. -/
def hexDigit (n : Nat) : Char :=
  if n < 10 then Char.ofNat (0x30 + n) else Char.ofNat (0x57 + n)

/-- The last `width` digits of `n` in base sixteen. -/
def hexDigits : Nat → Nat → List Char
  | 0, _ => []
  | width + 1, n => hexDigits width (n / 16) ++ [hexDigit (n % 16)]

/-- One character of a quoted text. An unprintable one is written as its code point, in the
narrowest of the three widths that holds it. -/
def quotedChar (mark c : Char) : List Char :=
  if c = '\\' || c = mark then ['\\', c]
  else if c = '\n' then ['\\', 'n']
  else if c = '\r' then ['\\', 'r']
  else if c = '\t' then ['\\', 't']
  else if isPrintable c then [c]
  else if c.toNat < 0x100 then '\\' :: 'x' :: hexDigits 2 c.toNat
  else if c.toNat < 0x10000 then '\\' :: 'u' :: hexDigits 4 c.toNat
  else '\\' :: 'U' :: hexDigits 8 c.toNat

def quoted (s : String) : String :=
  let mark := quoteMark s.toList
  String.ofList (mark :: s.toList.flatMap (quotedChar mark) ++ [mark])

end RecordGrammar.Text
