import RecordGrammar.Json.Shown

/-!
# Bounds on lengths and counts

A bound is a natural number or absent. It is read from any JSON value: a double that is equal to an
integer counts as that integer, a truth value does not.
-/

namespace RecordGrammar

inductive BoundError where
  | notInteger (label : String) (value : Json)
  | negative (label : String) (value : Int)

def BoundError.message : BoundError → String
  | notInteger label value => label ++ " must be an integer, got " ++ value.shown
  | negative label value => label ++ " must be non-negative, got " ++ toString value

def boundOfInt (label : String) (n : Int) : Except BoundError (Option Nat) :=
  if n < 0 then .error (.negative label n) else .ok (some n.toNat)

/-- The bound that a JSON value gives. -/
def boundOfJson (label : String) : Json → Except BoundError (Option Nat)
  | .null => .ok none
  | .int n => boundOfInt label n
  | .float x =>
    match Decimal.integer? x with
    | some n => boundOfInt label n
    | none => .error (.notInteger label (.float x))
  | v => .error (.notInteger label v)

end RecordGrammar
