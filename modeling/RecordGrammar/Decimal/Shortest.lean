/-!
# The shortest decimal of a double

A double stands for every real number that rounds to it. `Binary.shortest` gives the decimal with
the fewest digits among them, and of several with as few digits the one nearest to the double. All
arithmetic is exact, on integers.
-/

namespace RecordGrammar

/-- A decimal: `digits * 10 ^ exponent`. -/
structure Decimal where
  digits : Nat
  /-- The power of ten they are scaled by. -/
  exponent : Int
deriving DecidableEq, Repr

namespace Decimal

def twoTo (n : Nat) : Nat := Nat.pow 2 n

def tenTo (n : Nat) : Nat := Nat.pow 10 n

/-- A finite double other than zero, without its sign: `mantissa * 2 ^ exponent`. -/
structure Binary where
  mantissa : Nat
  /-- The power of two they are scaled by. -/
  exponent : Int
  /-- Whether the next double below is half as far away as the next one above. -/
  narrow : Bool

namespace Binary

/-- The magnitude that the bits of a finite double encode. -/
def ofBits (bits : UInt64) : Binary :=
  let scale := (bits >>> 52).toNat % 2048
  let fraction := bits.toNat % twoTo 52
  if scale = 0 then ⟨fraction, -1074, false⟩
  else ⟨twoTo 52 + fraction, (scale : Int) - 1075, fraction = 0 && 1 < scale⟩

/-- Compares `d * 10 ^ g` with `n * 2 ^ q`. -/
def compareScaled (d : Nat) (g : Int) (n : Nat) (q : Int) : Ordering :=
  compare (d * tenTo g.toNat * twoTo (-q).toNat) (n * twoTo q.toNat * tenTo (-g).toNat)

/-- Whether `d * 10 ^ g` rounds to the double. The ends of the interval, halfway to either
neighbour, belong to it exactly when the mantissa is even. -/
def readsBack (x : Binary) (d : Nat) (g : Int) : Bool :=
  let low := compareScaled d g (4 * x.mantissa - if x.narrow then 1 else 2) (x.exponent - 2)
  let high := compareScaled d g (4 * x.mantissa + 2) (x.exponent - 2)
  let even := x.mantissa % 2 = 0
  (low = .gt || even && low = .eq) && (high = .lt || even && high = .eq)

/-- The double divided by `10 ^ g`, rounded down. -/
def quotient (x : Binary) (g : Int) : Nat :=
  x.mantissa * twoTo x.exponent.toNat * tenTo (-g).toNat / (twoTo (-x.exponent).toNat * tenTo g.toNat)

/-- The place of the leading decimal digit: the least `k` with the double below `10 ^ k`. -/
def magnitude (x : Binary) : Int :=
  let guess := ((x.mantissa.log2 : Int) + x.exponent) * 1233 / 4096 - 1
  let above := (List.range 5).find? fun (i : Nat) => compareScaled 1 (guess + i) x.mantissa x.exponent = .gt
  guess + above.getD 4

/-- The multiple of `10 ^ g` nearest to the double among its two neighbours that read back to it.
Of two equally near ones the even one is taken. -/
def onGrid? (x : Binary) (g : Int) : Option Decimal :=
  let below := x.quotient g
  match x.readsBack below g, x.readsBack (below + 1) g with
  | true, false => some ⟨below, g⟩
  | false, true => some ⟨below + 1, g⟩
  | false, false => none
  | true, true =>
    match compareScaled (2 * below + 1) g (2 * x.mantissa) x.exponent with
    | .gt => some ⟨below, g⟩
    | .lt => some ⟨below + 1, g⟩
    | .eq => some ⟨if below % 2 = 0 then below else below + 1, g⟩

/-- The shortest decimal, with as many digits as the first grid that has one needs. Seventeen
digits always suffice; were there none, the exact value would be given. -/
def shortest (x : Binary) : Decimal :=
  let k := x.magnitude
  match (List.range 17).findSome? fun (n : Nat) => x.onGrid? (k - 1 - n) with
  | some d => d
  | none => ⟨x.mantissa * twoTo x.exponent.toNat * Nat.pow 5 (-x.exponent).toNat, if x.exponent < 0 then x.exponent else 0⟩

end Binary

end Decimal

end RecordGrammar
