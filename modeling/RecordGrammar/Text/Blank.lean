import RecordGrammar.Text.Ranges

/-!
# Blank characters

Blank characters are the Unicode white space together with the four information separators. A text
is trimmed by dropping them at both ends.
-/

namespace RecordGrammar.Text

/-- The code points of the blank characters. -/
def blankRanges : List (Nat × Nat) :=
  [(0x09, 0x0D), (0x1C, 0x20), (0x85, 0x85), (0xA0, 0xA0), (0x1680, 0x1680), (0x2000, 0x200A),
   (0x2028, 0x2029), (0x202F, 0x202F), (0x205F, 0x205F), (0x3000, 0x3000)]

def isBlank (c : Char) : Bool := inRanges blankRanges c.toNat

/-- The characters without those at the end that satisfy `p`. -/
def dropEndWhile (p : Char → Bool) (s : List Char) : List Char :=
  (s.reverse.dropWhile p).reverse

/-- The characters without those at either end that satisfy `p`. -/
def trimWhile (p : Char → Bool) (s : List Char) : List Char :=
  dropEndWhile p (s.dropWhile p)

/-- The text without the blank characters at either end. -/
def trim (s : String) : String := String.ofList (trimWhile isBlank s.toList)

/-- The text without the blank characters at its end. -/
def trimEnd (s : String) : String := String.ofList (dropEndWhile isBlank s.toList)

end RecordGrammar.Text
