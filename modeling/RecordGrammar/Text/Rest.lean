/-!
# Rests of texts

A reader takes something off the front of a text and returns what is left. The types of rests hold
the proof that it is shorter, or no longer, so that reading on ends.
-/

namespace RecordGrammar.Text

/-- What is left of a text once something has been read off its front. -/
abbrev Rest (s : List Char) := { r : List Char // r.length < s.length }

/-- What is left of a text once something, or nothing, has been read off its front. -/
abbrev RestOrAll (s : List Char) := { r : List Char // r.length ≤ s.length }

namespace Rest

/-- What is left behind the first character. -/
def tail (c : Char) (r : List Char) : Rest (c :: r) := ⟨r, Nat.lt_succ_self _⟩

/-- What is left of a text, with a character read before it. -/
def cons (c : Char) {r : List Char} (rest : Rest r) : Rest (c :: r) := ⟨rest.val, Nat.lt_succ_of_lt rest.property⟩

/-- A rest that is shorter, as one that is no longer. -/
def orAll {s : List Char} (rest : Rest s) : RestOrAll s := ⟨rest.val, Nat.le_of_lt rest.property⟩

end Rest

namespace RestOrAll

/-- The whole text, of which nothing has been read. -/
def all (s : List Char) : RestOrAll s := ⟨s, Nat.le_refl _⟩

/-- What is left of a text, with a character read before it. -/
def behind (c : Char) {r : List Char} (rest : RestOrAll r) : Rest (c :: r) :=
  ⟨rest.val, Nat.lt_succ_of_le rest.property⟩

end RestOrAll

/-- Reads characters that satisfy `p`, as many as there are. -/
def readWhile (p : Char → Bool) : (s : List Char) → List Char × RestOrAll s
  | [] => ([], RestOrAll.all [])
  | c :: r =>
    if p c then
      let (cs, rest) := readWhile p r
      (c :: cs, (RestOrAll.behind c rest).orAll)
    else ([], RestOrAll.all (c :: r))

/-- Reads characters that satisfy `p`, but at most `n` of them. -/
def readUpTo (p : Char → Bool) : Nat → (s : List Char) → List Char × RestOrAll s
  | 0, s => ([], RestOrAll.all s)
  | _ + 1, [] => ([], RestOrAll.all [])
  | n + 1, c :: r =>
    if p c then
      let (cs, rest) := readUpTo p n r
      (c :: cs, (RestOrAll.behind c rest).orAll)
    else ([], RestOrAll.all (c :: r))

/-- Reads the first character and the word it starts. -/
def readWord (c : Char) : (word s : List Char) → Option (Rest s)
  | _, [] => none
  | [], d :: r => if c = d then some (Rest.tail d r) else none
  | e :: word, d :: r =>
    if c = d then do
      let rest ← readWord e word r
      return Rest.cons d rest
    else none

/-- Reads up to the first `stop` and over it. There must be one, and something before it. -/
def readName (stop : Char) (s : List Char) : Option (List Char × Rest s) :=
  match readWhile (· ≠ stop) s with
  | (name, ⟨_ :: rest, h⟩) =>
    if name.isEmpty then none else some (name, ⟨rest, by simp only [List.length_cons] at h; omega⟩)
  | _ => none

/-- The value of a row of decimal digits. -/
def valueOfDigits (ds : List Char) : Nat := ds.foldl (fun n c => 10 * n + (c.toNat - 0x30)) 0

/-- The value of a digit in base sixteen, in either case. -/
def hexValue? (c : Char) : Option Nat :=
  if '0' ≤ c && c ≤ '9' then some (c.toNat - 0x30)
  else if 'a' ≤ c && c ≤ 'f' then some (c.toNat - 0x57)
  else if 'A' ≤ c && c ≤ 'F' then some (c.toNat - 0x37)
  else none

/-- Whether the character is a digit in base sixteen. -/
def isHexDigit (c : Char) : Bool := (hexValue? c).isSome

/-- The value of a row of digits in base sixteen. -/
def valueOfHexDigits (ds : List Char) : Nat := ds.foldl (fun n c => 16 * n + (hexValue? c).getD 0) 0

end RecordGrammar.Text
