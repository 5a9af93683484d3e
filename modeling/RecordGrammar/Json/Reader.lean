import RecordGrammar.Decimal.Notation
import RecordGrammar.Json.Basic
import RecordGrammar.Text.Rest

/-!
# Reading JSON texts

A reader takes what it reads off the front of a text and returns the rest together with a proof
that it is shorter, which is why reading ends. `NaN`, `Infinity` and `-Infinity` are read as
numbers. Of fields with one name the last value counts, at the place of the first. `half` says as which character half of a
pair of UTF-16 units is read that stands alone.
-/

namespace RecordGrammar.Json

open Text

/-- The characters that may stand between tokens. -/
def isGap (c : Char) : Bool := c = ' ' || c = '\t' || c = '\n' || c = '\r'

/-- Skips the gap at the front of a text. -/
def skipGap (s : List Char) : RestOrAll s := (readWhile isGap s).2

/-- The value of four digits in base sixteen. -/
def unit? (a b c d : Char) : Option Nat :=
  if [a, b, c, d].all isHexDigit then some (valueOfHexDigits [a, b, c, d]) else none

def unescape? : Char → Option Char
  | '"' => some '"'
  | '\\' => some '\\'
  | '/' => some '/'
  | 'b' => some '\x08'
  | 'f' => some '\x0c'
  | 'n' => some '\n'
  | 'r' => some '\r'
  | 't' => some '\t'
  | _ => none

/-- A UTF-16 unit that stands alone. -/
def ofUnit (half : Nat → Char) (n : Nat) : Char := if 0xD800 ≤ n && n < 0xE000 then half n else Char.ofNat n

/-- Reads what follows the backslash of an escape. Two units that form a pair are one character. -/
def readEscape (half : Nat → Char) : (s : List Char) → Option (Char × Rest s)
  | 'u' :: a :: b :: c :: d :: '\\' :: 'u' :: e :: f :: g :: h :: r => do
    let high ← unit? a b c d
    match unit? e f g h with
    | some low =>
      if 0xD800 ≤ high && high < 0xDC00 && 0xDC00 ≤ low && low < 0xE000 then
        return (Char.ofNat (0x10000 + (high - 0xD800) * 0x400 + (low - 0xDC00)),
          ⟨r, by simp only [List.length_cons]; omega⟩)
      else return (ofUnit half high, ⟨'\\' :: 'u' :: e :: f :: g :: h :: r, by simp only [List.length_cons]; omega⟩)
    | none => return (ofUnit half high, ⟨'\\' :: 'u' :: e :: f :: g :: h :: r, by simp only [List.length_cons]; omega⟩)
  | 'u' :: a :: b :: c :: d :: r => do
    return (ofUnit half (← unit? a b c d), ⟨r, by simp only [List.length_cons]; omega⟩)
  | c :: r => do return (← unescape? c, Rest.tail c r)
  | [] => none

/-- Reads a string literal whose opening quote has been read. -/
def readText (half : Nat → Char) (s : List Char) : Option (List Char × Rest s) :=
  match s with
  | [] => none
  | '"' :: r => some ([], Rest.tail '"' r)
  | '\\' :: r => do
    let (c, ⟨q, hq⟩) ← readEscape half r
    let (text, ⟨rest, h⟩) ← readText half q
    return (c :: text, ⟨rest, by simp only [List.length_cons]; omega⟩)
  | c :: r =>
    if c.toNat < 0x20 then none
    else do
      let (text, rest) ← readText half r
      return (c :: text, Rest.cons c rest)
termination_by s.length

/-- Reads the digits before the point: a zero, or digits that start with another one. -/
def readWhole (s : List Char) : Option (List Char × Rest s) :=
  match s with
  | [] => none
  | c :: r =>
    if c = '0' then some (['0'], Rest.tail c r)
    else if c.isDigit then
      let (ds, rest) := readWhile Char.isDigit r
      some (c :: ds, RestOrAll.behind c rest)
    else none

/-- Reads a point and the digits behind it, if both are there. -/
def readFraction (s : List Char) : List Char × RestOrAll s :=
  match s with
  | '.' :: r =>
    match readWhile Char.isDigit r with
    | ([], _) => ([], RestOrAll.all ('.' :: r))
    | (ds, rest) => (ds, (RestOrAll.behind '.' rest).orAll)
  | s => ([], RestOrAll.all s)

/-- Reads an exponent, if there is one. -/
def readExponent (s : List Char) : Option Int × RestOrAll s :=
  match s with
  | [] => (none, RestOrAll.all [])
  | e :: r =>
    if e = 'e' || e = 'E' then
      let (negative, ⟨q, hq⟩) : Bool × RestOrAll r := match r with
        | '-' :: q => (true, (Rest.tail '-' q).orAll)
        | '+' :: q => (false, (Rest.tail '+' q).orAll)
        | q => (false, RestOrAll.all q)
      match readWhile Char.isDigit q with
      | ([], _) => (none, RestOrAll.all (e :: r))
      | (ds, ⟨rest, h⟩) =>
        let n : Int := valueOfDigits ds
        (some (if negative then -n else n), ⟨rest, by simp only [List.length_cons]; omega⟩)
    else (none, RestOrAll.all (e :: r))

/-- Reads an unsigned number. It is an integer if it has neither point nor exponent. -/
def readUnsigned (negative : Bool) (s : List Char) : Option (Json × Rest s) := do
  let (whole, ⟨q, hq⟩) ← readWhole s
  let (fraction, ⟨p, hp⟩) := readFraction q
  let (exponent, ⟨r, hr⟩) := readExponent p
  let rest : Rest s := ⟨r, by omega⟩
  if fraction.isEmpty && exponent.isNone then
    let n : Int := valueOfDigits whole
    return (int (if negative then -n else n), rest)
  else
    let x := Decimal.toFloat ⟨valueOfDigits (whole ++ fraction), exponent.getD 0 - fraction.length⟩
    return (float (if negative then -x else x), rest)

def notANumber : Float := Float.ofBits 0x7FF8000000000000

def infinity : Float := Float.ofBits 0x7FF0000000000000

/-- Reads a value that is written as a word. -/
def readNamed (s : List Char) : Option (Json × Rest s) :=
  (readWord 'n' ['u', 'l', 'l'] s).map (null, ·)
    <|> (readWord 't' ['r', 'u', 'e'] s).map (bool true, ·)
    <|> (readWord 'f' ['a', 'l', 's', 'e'] s).map (bool false, ·)
    <|> (readWord 'N' ['a', 'N'] s).map (float notANumber, ·)
    <|> (readWord 'I' "nfinity".toList s).map (float infinity, ·)
    <|> (readWord '-' "Infinity".toList s).map (float (-infinity), ·)

/-- Reads a value that has no parts and is no string. -/
def readAtom (s : List Char) : Option (Json × Rest s) :=
  readNamed s <|>
    match s with
    | '-' :: r => do
      let (v, rest) ← readUnsigned true r
      return (v, Rest.cons '-' rest)
    | s => readUnsigned false s

/-- Reads a gap and the character behind it, which must be `mark`. -/
def readMark (mark : Char) (s : List Char) : Option (Rest s) :=
  match skipGap s with
  | ⟨[], _⟩ => none
  | ⟨c :: rest, h⟩ => if c = mark then some ⟨rest, h⟩ else none

mutual

/-- Reads a value that starts at the first character. -/
def readValue (half : Nat → Char) (s : List Char) : Option (Json × Rest s) :=
  match s with
  | '"' :: r => do
    let (text, rest) ← readText half r
    return (str (String.ofList text), Rest.cons '"' rest)
  | '[' :: r =>
    match readMark ']' r with
    | some rest => some (arr [], Rest.cons '[' rest)
    | none => do
      let (es, rest) ← readElements half r
      return (arr es, Rest.cons '[' rest)
  | '\x7b' :: r =>
    match readMark '\x7d' r with
    | some rest => some (obj [], Rest.cons '\x7b' rest)
    | none => do
      let (fs, rest) ← readFields half [] r
      return (obj fs, Rest.cons '\x7b' rest)
  | s => readAtom s
termination_by (s.length, 0)
decreasing_by
  · exact Prod.Lex.left _ _ (Nat.lt_succ_self _)
  · exact Prod.Lex.left _ _ (Nat.lt_succ_self _)

/-- Reads the elements of an array up to its closing bracket. -/
def readElements (half : Nat → Char) (s : List Char) : Option (List Json × Rest s) :=
  match skipGap s with
  | ⟨start, hs⟩ =>
    match readValue half start with
    | none => none
    | some (v, ⟨q, hq⟩) =>
      match readMark ']' q with
      | some ⟨rest, h⟩ => some ([v], ⟨rest, by omega⟩)
      | none =>
        match readMark ',' q with
        | none => none
        | some ⟨next, hn⟩ =>
          match readElements half next with
          | none => none
          | some (vs, ⟨rest, h⟩) => some (v :: vs, ⟨rest, by omega⟩)
termination_by (s.length, 1)
decreasing_by
  · exact Prod.Lex.right' _ (by omega) (by omega)
  · exact Prod.Lex.left _ _ (by omega)

/-- Reads the fields of an object up to its closing brace, into those read before. -/
def readFields (half : Nat → Char) (before : Fields) (s : List Char) : Option (Fields × Rest s) :=
  match readMark '"' s with
  | none => none
  | some ⟨name, hn⟩ =>
    match readText half name with
    | none => none
    | some (key, ⟨q, hq⟩) =>
      match readMark ':' q with
      | none => none
      | some ⟨p, hp⟩ =>
        match skipGap p with
        | ⟨start, hs⟩ =>
          match readValue half start with
          | none => none
          | some (v, ⟨t, ht⟩) =>
            let fields := before.set (String.ofList key) v
            match readMark '\x7d' t with
            | some ⟨rest, h⟩ => some (fields, ⟨rest, by omega⟩)
            | none =>
              match readMark ',' t with
              | none => none
              | some ⟨next, hx⟩ =>
                match readFields half fields next with
                | none => none
                | some (all, ⟨rest, h⟩) => some (all, ⟨rest, by omega⟩)
termination_by (s.length, 1)
decreasing_by
  · exact Prod.Lex.left _ _ (by omega)
  · exact Prod.Lex.left _ _ (by omega)

end

/-- The value that a text holds, with nothing but gaps around it. -/
def ofText? (half : Nat → Char) (text : String) : Option Json :=
  match readValue half (skipGap text.toList).val with
  | some (v, rest) => if (skipGap rest.val).val.isEmpty then some v else none
  | none => none

mutual

/-- All texts in a value, the names of fields among them. -/
def texts : Json → List String
  | str s => [s]
  | arr es => textsInElements es
  | obj fs => textsInFields fs
  | _ => []

def textsInElements : List Json → List String
  | [] => []
  | v :: es => texts v ++ textsInElements es

def textsInFields : List (String × Json) → List String
  | [] => []
  | (k, v) :: fs => k :: texts v ++ textsInFields fs

end

end RecordGrammar.Json
