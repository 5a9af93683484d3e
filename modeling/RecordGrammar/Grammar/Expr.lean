import RecordGrammar.Grammar.CharClass

/-!
# Grammar expressions

The expressions of a grammar in GBNF: literals, character classes, names of rules, and what is
built from them by juxtaposition, alternatives, groups and repetition. An expression also says
whether its parts are set apart by blanks, so each has one text. `Expr.Derives` says which texts an
expression stands for.
-/

namespace RecordGrammar

/-- Whether the parts of an expression are set apart by blanks. -/
inductive Gap where
  | spaced
  | tight
deriving DecidableEq

/-- How often a repeated expression may stand in a row. -/
inductive Times where
  | optional
  | some
  | exactly (n : Nat)
  /-- Any number from `min` to `max`; none at all if `max` is the lesser. -/
  | between (min : Nat) (max : Int)
deriving DecidableEq

inductive Expr where
  | empty
  | literal (text : String)
  | cls (k : CharClass)
  | rule (name : String)
  | seq (gap : Gap) (first rest : Expr)
  | alt (gap : Gap) (first rest : Expr)
  | group (e : Expr)
  | repeated (e : Expr) (times : Times)
  /-- A text taken over as it is, whatever it means. -/
  | raw (text : String)
deriving DecidableEq

def escapeInLiteral (c : Char) : List Char :=
  if c = '\\' then ['\\', '\\']
  else if c = '"' then ['\\', '"']
  else if c = '\n' then ['\\', 'n']
  else if c = '\r' then ['\\', 'r']
  else if c = '\t' then ['\\', 't']
  else [c]

/-- A literal that stands for the given characters. -/
def literalText (s : List Char) : List Char := '"' :: s.flatMap escapeInLiteral ++ ['"']

def Times.chars : Times → List Char
  | optional => ['?']
  | some => ['+']
  | exactly n => '\x7b' :: (toString n).toList ++ ['\x7d']
  | between min max => '\x7b' :: (toString min).toList ++ ',' :: (toString max).toList ++ ['\x7d']

def Times.Admits : Times → Nat → Prop
  | optional, n => n ≤ 1
  | some, n => 1 ≤ n
  | exactly m, n => n = m
  | between min max, n => min ≤ n ∧ (n : Int) ≤ max

namespace Expr

/-- What stands between two parts in a row. -/
def seqMark : Gap → List Char
  | .spaced => [' ']
  | .tight => []

/-- What stands between two alternatives, the first of which may be empty. -/
def altMark : Gap → Expr → List Char
  | .spaced, .empty => ['|', ' ']
  | .spaced, _ => [' ', '|', ' ']
  | .tight, _ => ['|']

/-- The text of an expression, as characters. -/
def chars : Expr → List Char
  | empty => []
  | literal s => literalText s.toList
  | cls k => k.chars
  | rule name => name.toList
  | seq gap a b => a.chars ++ seqMark gap ++ b.chars
  | alt gap a b => a.chars ++ altMark gap a ++ b.chars
  | group e => '(' :: e.chars ++ [')']
  | repeated e times => e.chars ++ times.chars
  | raw s => s.toList

def render (e : Expr) : String := String.ofList e.chars

/-- One expression behind another. A row on the left is continued, so rows nest to the right only. -/
def andThen (gap : Gap) : Expr → Expr → Expr
  | seq g a b, e => seq g a (andThen gap b e)
  | a, e => seq gap a e

def row (gap : Gap) : List Expr → Expr
  | [] => empty
  | [e] => e
  | e :: es => andThen gap e (row gap es)

def oneOf (gap : Gap) : List Expr → Expr
  | [] => empty
  | [e] => e
  | e :: es => alt gap e (oneOf gap es)

/-- An expression that may be left out. -/
def maybe (e : Expr) : Expr := repeated e .optional

/-- The text `t` is one that `e` stands for, where `body` gives the body of each rule. A raw text
stands for nothing known. -/
inductive Derives (body : String → Option Expr) : Expr → List Char → Prop
  | empty : Derives body empty []
  | literal (s : String) : Derives body (literal s) s.toList
  | cls {k : CharClass} {c : Char} (h : k.admits c = true) : Derives body (cls k) [c]
  | rule {name : String} {e : Expr} {t : List Char} (h : body name = some e) (ht : Derives body e t) :
    Derives body (rule name) t
  | seq {gap : Gap} {a b : Expr} {s t : List Char} (hs : Derives body a s) (ht : Derives body b t) :
    Derives body (seq gap a b) (s ++ t)
  | altFirst {gap : Gap} {a b : Expr} {t : List Char} (h : Derives body a t) : Derives body (alt gap a b) t
  | altRest {gap : Gap} {a b : Expr} {t : List Char} (h : Derives body b t) : Derives body (alt gap a b) t
  | group {e : Expr} {t : List Char} (h : Derives body e t) : Derives body (group e) t
  | repeated {e : Expr} {times : Times} {ts : List (List Char)} (hn : times.Admits ts.length)
    (h : ∀ t ∈ ts, Derives body e t) : Derives body (repeated e times) ts.flatten

end Expr

end RecordGrammar
