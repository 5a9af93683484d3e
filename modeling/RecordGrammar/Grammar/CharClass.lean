/-!
# Character classes

A class lists single characters and ranges, and admits one character that is among them, or, if it
is negated, one that is not. How each character is spelled belongs to the class, so that every
class has one text.
-/

namespace RecordGrammar

/-- How a character is spelled inside a class. -/
inductive Spelling where
  /-- With a backslash where the character would otherwise have a meaning. -/
  | escaped
  | code
  | bare
deriving DecidableEq

structure ClassChar where
  char : Char
  spelling : Spelling := .escaped
deriving DecidableEq

/-- A member of the list of a class. -/
inductive ClassItem where
  | one (c : ClassChar)
  | range (first last : ClassChar)
deriving DecidableEq

structure CharClass where
  negated : Bool := false
  items : List ClassItem
deriving DecidableEq

/-- The digit of value `n` in base sixteen, in upper case. -/
def upperHexDigit (n : Nat) : Char :=
  if n < 10 then Char.ofNat (0x30 + n) else Char.ofNat (0x37 + n)

/-- A character with a backslash where it would otherwise have a meaning inside a class. -/
def escapeInClass (c : Char) : List Char :=
  if c = '\\' || c = ']' || c = '^' || c = '-' then ['\\', c]
  else if c = '\n' then ['\\', 'n']
  else if c = '\t' then ['\\', 't']
  else [c]

def ClassChar.chars : ClassChar → List Char
  | ⟨c, .escaped⟩ => escapeInClass c
  | ⟨c, .code⟩ => ['\\', 'x', upperHexDigit (c.toNat / 16), upperHexDigit (c.toNat % 16)]
  | ⟨c, .bare⟩ => [c]

def ClassItem.chars : ClassItem → List Char
  | .one c => c.chars
  | .range first last => first.chars ++ '-' :: last.chars

def ClassItem.covers : ClassItem → Char → Bool
  | .one c, x => x = c.char
  | .range first last, x => first.char ≤ x && x ≤ last.char

namespace CharClass

def chars (k : CharClass) : List Char :=
  '[' :: (if k.negated then ['^'] else []) ++ k.items.flatMap ClassItem.chars ++ [']']

def admits (k : CharClass) (x : Char) : Bool :=
  k.items.any (·.covers x) != k.negated

def ofChars (cs : List Char) : CharClass where
  items := cs.map fun c => .one ⟨c, .escaped⟩

/-- The class of all characters but the given ones. -/
def noneOf (cs : List Char) : CharClass where
  negated := true
  items := cs.map fun c => .one ⟨c, .escaped⟩

/-- The class of the characters in the given ranges. -/
def ofRanges (rs : List (Char × Char)) : CharClass where
  items := rs.map fun r => .range ⟨r.1, .escaped⟩ ⟨r.2, .escaped⟩

def digit : CharClass := ofRanges [('0', '9')]

/-- The digits in base sixteen, in either case. -/
def hexDigit : CharClass := ofRanges [('0', '9'), ('a', 'f'), ('A', 'F')]

end CharClass

end RecordGrammar
