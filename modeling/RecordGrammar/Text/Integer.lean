import RecordGrammar.Text.Blank

/-!
# Integers in running text

An integer is read from digits of any script, with an optional sign before them. A low line may stand
between two digits, and blanks at either end do not count, information separators excepted.
-/

namespace RecordGrammar.Text

/-- The code points of the digits zero; the other nine follow each of them. -/
def digitZeros : List Nat :=
  [0x30, 0x660, 0x6F0, 0x7C0, 0x966, 0x9E6, 0xA66, 0xAE6, 0xB66, 0xBE6, 0xC66, 0xCE6, 0xD66, 0xDE6, 0xE50,
   0xED0, 0xF20, 0x1040, 0x1090, 0x17E0, 0x1810, 0x1946, 0x19D0, 0x1A80, 0x1A90, 0x1B50, 0x1BB0, 0x1C40,
   0x1C50, 0xA620, 0xA8D0, 0xA900, 0xA9D0, 0xA9F0, 0xAA50, 0xABF0, 0xFF10, 0x104A0, 0x10D30, 0x11066,
   0x110F0, 0x11136, 0x111D0, 0x112F0, 0x11450, 0x114D0, 0x11650, 0x116C0, 0x11730, 0x118E0, 0x11950,
   0x11C50, 0x11D50, 0x11DA0, 0x16A60, 0x16AC0, 0x16B50, 0x1D7CE, 0x1D7D8, 0x1D7E2, 0x1D7EC, 0x1D7F6,
   0x1E140, 0x1E2F0, 0x1E950, 0x1FBF0]

def digitValue? (c : Char) : Option Nat :=
  (digitZeros.find? fun z => z ≤ c.toNat && c.toNat ≤ z + 9).map (c.toNat - ·)

/-- Reads the digits behind those with the given value. -/
def readDigits (value : Nat) : List Char → Option Nat
  | [] => some value
  | '_' :: c :: cs => (digitValue? c).bind fun d => readDigits (10 * value + d) cs
  | c :: cs => (digitValue? c).bind fun d => readDigits (10 * value + d) cs

def natural? : List Char → Option Nat
  | [] => none
  | c :: cs => (digitValue? c).bind (readDigits · cs)

/-- Whether the character may surround an integer. -/
def isMargin (c : Char) : Bool := isBlank c && !(0x1C ≤ c.toNat && c.toNat ≤ 0x1F)

def integer? (s : String) : Option Int :=
  match trimWhile isMargin s.toList with
  | '-' :: cs => (natural? cs).map fun n => -(n : Int)
  | '+' :: cs => (natural? cs).map Int.ofNat
  | cs => (natural? cs).map Int.ofNat

example : integer? " -1_0 " = some (-10) ∧ integer? "1__0" = none ∧ integer? "" = none := by decide +kernel

end RecordGrammar.Text
