import RecordGrammar.Text.Quoted

/-!
# Lone halves

An escape in a JSON text may be half of a pair of UTF-16 units without the other half. Such a half is part of a text like
any character, but no character itself, and a text that holds one cannot be encoded: it can be neither shown nor written. Each
half is stood in for by a private character, from a block of them that the texts at hand have no use for.
-/

namespace RecordGrammar

/-- The first of the blocks of private characters. -/
def Halves.firstBlock : Fin 64 := 0

/-- The block of private characters that stand for the lone halves. -/
structure Halves where
  block : Fin 64 := Halves.firstBlock
deriving DecidableEq

/-- Why a text cannot be encoded: lone halves stand in a row at a position. -/
structure EncodingError where
  position : Nat
  halves : List Nat
deriving DecidableEq

def EncodingError.message (e : EncodingError) : String :=
  match e.halves with
  | [half] =>
    "'utf-8' codec can't encode character '" ++ String.ofList ('\\' :: 'u' :: Text.hexDigits 4 half) ++ "' in position "
      ++ toString e.position ++ ": surrogates not allowed"
  | halves =>
    s!"'utf-8' codec can't encode characters in position {e.position}-{e.position + halves.length - 1}: surrogates not allowed"

namespace Halves

/-- The code point that stands for the first half. -/
def first (h : Halves) : Nat := 0xF0000 + 0x800 * h.block.val

/-- The character that stands for a half. -/
def char (h : Halves) (half : Nat) : Char := Char.ofNat (h.first + (half - 0xD800))

/-- The half that a character stands for. -/
def half? (h : Halves) (c : Char) : Option Nat :=
  if h.first ≤ c.toNat && c.toNat < h.first + 0x800 then some (0xD800 + (c.toNat - h.first)) else none

/-- Whether a text holds a lone half. -/
def isIn (h : Halves) (s : String) : Bool := s.toList.any fun c => (h.half? c).isSome

/-- The lone halves that come first in a text, and where they stand. -/
def error? (h : Halves) (s : String) : Option EncodingError :=
  (s.toList.findIdx? fun c => (h.half? c).isSome).map fun position =>
    { position, halves := ((s.toList.drop position).map h.half?).takeWhile (·.isSome) |>.filterMap id }

/-- The first block without any of the characters; the first one of all, if they leave none. -/
def apartFrom (cs : List Char) : Halves :=
  ((List.finRange 64).map Halves.mk).find? (fun h => cs.all fun c => (h.half? c).isNone) |>.getD {}

end Halves

end RecordGrammar
