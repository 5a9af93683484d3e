import RecordGrammar.Text.Ranges

/-!
# Lines

A text falls into lines at every character that Unicode treats as a mandatory break. A carriage
return with a line feed behind it is one break, and a break at the very end starts no further line.
-/

namespace RecordGrammar.Text

/-- The code points that end a line. -/
def lineBreakRanges : List (Nat × Nat) :=
  [(0x0A, 0x0D), (0x1C, 0x1E), (0x85, 0x85), (0x2028, 0x2029)]

def isLineBreak (c : Char) : Bool := inRanges lineBreakRanges c.toNat

/-- The lines of a text, without the characters that end them. -/
def splitLines : List Char → List (List Char)
  | [] => []
  | '\r' :: '\n' :: rest => [] :: splitLines rest
  | c :: rest =>
    if isLineBreak c then [] :: splitLines rest
    else match splitLines rest with
      | [] => [[c]]
      | line :: lines => (c :: line) :: lines

example : splitLines "a\r\nb\n\nc\n".toList = [['a'], ['b'], [], ['c']] := by decide

end RecordGrammar.Text
