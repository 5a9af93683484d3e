import RecordGrammar.Decimal.Shortest

/-!
# Decimal notation of doubles

Doubles are written with the fewest digits that identify them: positionally from `10 ^ -4` to
`10 ^ 16`, and always with a point, otherwise with an exponent that has a sign and two digits or more.
-/

namespace RecordGrammar.Decimal

def digitsOf (n : Nat) : List Char := (toString n).toList

/-- Drops zeros at the end of the digits into the exponent. -/
def normal (d : Decimal) : Decimal :=
  let kept := (digitsOf d.digits).reverse.dropWhile (· = '0')
  let dropped := (digitsOf d.digits).length - kept.length
  ⟨d.digits / tenTo dropped, d.exponent + dropped⟩

/-- The exponent of ten behind the mark `e`. -/
def exponentText (e : Int) : String :=
  let digits := toString e.natAbs
  (if e < 0 then "-" else "+") ++ (if digits.length < 2 then "0" ++ digits else digits)

/-- The digits of a decimal with the point set. -/
def layout (d : Decimal) : String :=
  let digits := digitsOf d.digits
  let lead := (digits.length : Int) + d.exponent - 1
  if lead < -4 || 16 ≤ lead then
    let tail := digits.drop 1
    String.ofList (digits.take 1) ++ (if tail.isEmpty then "" else "." ++ String.ofList tail)
      ++ "e" ++ exponentText lead
  else if lead < 0 then
    "0." ++ String.ofList (List.replicate (-lead - 1).toNat '0' ++ digits)
  else
    let whole := digits.take (lead + 1).toNat
    let zeros := List.replicate d.exponent.toNat '0'
    let tail := digits.drop (lead + 1).toNat
    String.ofList (whole ++ zeros) ++ "." ++ (if tail.isEmpty then "0" else String.ofList tail)

/-- How a double that is no finite number is written. -/
structure Specials where
  /-- The text of a value that is no number. -/
  nan : String
  infinity : String

/-- The special values as messages show them. -/
def shown : Specials := ⟨"nan", "inf"⟩

/-- The special values in a JSON text. -/
def inJson : Specials := ⟨"NaN", "Infinity"⟩

def render (specials : Specials) (x : Float) : String :=
  if x.isNaN then specials.nan
  else
    let sign := if x.toBits >>> 63 = 1 then "-" else ""
    let magnitude := x.toBits.toNat % twoTo 63
    if magnitude = 0 then sign ++ "0.0"
    else if magnitude = 0x7FF0000000000000 then sign ++ specials.infinity
    else sign ++ layout (Binary.ofBits x.toBits).shortest.normal

/-- The integer that a double is equal to, if there is one. -/
def integer? (x : Float) : Option Int :=
  let magnitude := x.toBits.toNat % twoTo 63
  if magnitude = 0 then some 0
  else if 0x7FF0000000000000 ≤ magnitude then none
  else
    let b := Binary.ofBits x.toBits
    let denominator := twoTo (-b.exponent).toNat
    if b.mantissa % denominator = 0 then
      let n : Int := (b.mantissa / denominator * twoTo b.exponent.toNat : Nat)
      some (if x.toBits >>> 63 = 1 then -n else n)
    else none

/-- The double nearest to the decimal. Magnitudes far beyond the range of doubles are recognised
from the number of digits, without computing large powers. -/
def toFloat (d : Decimal) : Float :=
  let lead := ((digitsOf d.digits).length : Int) + d.exponent
  if d.digits = 0 || lead < -400 then 0.0
  else if 400 < lead then Float.ofBits 0x7FF0000000000000
  else Float.ofScientific d.digits (d.exponent < 0) d.exponent.natAbs

end RecordGrammar.Decimal
