import RecordGrammar.Json.Reader
import RecordGrammar.Proofs.Text.Language

/-!
# The grammar of JSON

`IsText w v`: the text `w` is derived by the grammar of JSON and stands for the value `v`. A value keeps all that the
text says: the characters of a number, every member of an object in its place, and a string as the UTF-16 units that
its characters and escapes stand for, halves of pairs among them.
-/

namespace RecordGrammar.JsonText

inductive Value where
  | null
  | bool (value : Bool)
  | number (text : List Char)
  | string (units : List Nat)
  | array (elements : List Value)
  | object (members : List (List Nat × Value))

/-! ### Strings -/

def unitsOf (c : Char) : List Nat :=
  if c.toNat < 0x10000 then [c.toNat]
  else [0xD800 + (c.toNat - 0x10000) / 0x400, 0xDC00 + (c.toNat - 0x10000) % 0x400]

def utf16 (s : String) : List Nat := s.toList.flatMap unitsOf

/-- Whether a character stands for itself in a string. -/
def isPlain (c : Char) : Bool := c ≠ '"' && c ≠ '\\' && 0x20 ≤ c.toNat

/-- What stands between the quotes of a string, and its units. -/
inductive Chars : List Char → List Nat → Prop where
  | nil : Chars [] []
  | plain {c : Char} {s : List Char} {u : List Nat} (hc : isPlain c = true) (h : Chars s u) :
      Chars (c :: s) (unitsOf c ++ u)
  | escape {l c : Char} {s : List Char} {u : List Nat} (hl : Json.unescape? l = some c) (h : Chars s u) :
      Chars ('\\' :: l :: s) (c.toNat :: u)
  | unit {ds s : List Char} {u : List Nat} (hlen : ds.length = 4) (hds : ∀ d ∈ ds, Text.isHexDigit d = true)
      (h : Chars s u) : Chars ('\\' :: 'u' :: (ds ++ s)) (Text.valueOfHexDigits ds :: u)

/-! ### Values -/

/-- The texts of numbers: a sign, digits without a zero before others, a fraction and an exponent. -/
def numberTexts : Language Char :=
  (1 + just "-") * (just "0" + digitOf 1 9 * (1 + someRuns (digitOf 0 9))) * (1 + just "." * someRuns (digitOf 0 9)) *
    (1 + oneChar (fun c => c = 'e' ∨ c = 'E') * (1 + oneChar fun c => c = '+' ∨ c = '-') * someRuns (digitOf 0 9))

def IsGap (g : List Char) : Prop := ∀ c ∈ g, Json.isGap c = true

mutual

/-- The text of a value, from its first character to its last. -/
inductive Spells : List Char → Value → Prop where
  | null : Spells "null".toList .null
  | yes : Spells "true".toList (.bool true)
  | no : Spells "false".toList (.bool false)
  | number {w : List Char} (h : w ∈ numberTexts) : Spells w (.number w)
  | string {s : List Char} {u : List Nat} (h : Chars s u) : Spells ('"' :: (s ++ ['"'])) (.string u)
  | emptyArray {g : List Char} (hg : IsGap g) : Spells ('[' :: (g ++ [']'])) (.array [])
  | array {g t : List Char} {vs : List Value} (hg : IsGap g) (h : Elements t vs) : Spells ('[' :: (g ++ t)) (.array vs)
  | emptyObject {g : List Char} (hg : IsGap g) : Spells ('\x7b' :: (g ++ ['\x7d'])) (.object [])
  | object {g t : List Char} {ms : List (List Nat × Value)} (hg : IsGap g) (h : Members t ms) :
      Spells ('\x7b' :: (g ++ t)) (.object ms)

/-- The elements of an array and the bracket behind them. -/
inductive Elements : List Char → List Value → Prop where
  | last {t g : List Char} {v : Value} (h : Spells t v) (hg : IsGap g) : Elements (t ++ (g ++ [']'])) [v]
  | cons {t g k s : List Char} {v : Value} {vs : List Value} (h : Spells t v) (hg : IsGap g) (hk : IsGap k)
      (hs : Elements s vs) : Elements (t ++ (g ++ ',' :: (k ++ s))) (v :: vs)

/-- A member of an object: a name, a colon and a value. -/
inductive Member : List Char → List Nat × Value → Prop where
  | mk {s g k t : List Char} {u : List Nat} {v : Value} (hs : Chars s u) (hg : IsGap g) (hk : IsGap k)
      (h : Spells t v) : Member ('"' :: (s ++ '"' :: (g ++ ':' :: (k ++ t)))) (u, v)

/-- The members of an object and the brace behind them. -/
inductive Members : List Char → List (List Nat × Value) → Prop where
  | last {t g : List Char} {m : List Nat × Value} (h : Member t m) (hg : IsGap g) : Members (t ++ (g ++ ['\x7d'])) [m]
  | cons {t g k s : List Char} {m : List Nat × Value} {ms : List (List Nat × Value)} (h : Member t m) (hg : IsGap g)
      (hk : IsGap k) (hs : Members s ms) : Members (t ++ (g ++ ',' :: (k ++ s))) (m :: ms)

end

/-- A whole JSON text: a value with white space around it. -/
def IsText (w : List Char) (v : Value) : Prop :=
  ∃ g t k, IsGap g ∧ Spells t v ∧ IsGap k ∧ w = g ++ (t ++ k)

end RecordGrammar.JsonText
