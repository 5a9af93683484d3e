import RecordGrammar.Grammar.RuleTable
import RecordGrammar.Text.Rest
import RecordGrammar.Text.Split

/-!
# Reading grammar texts

What a grammar text means is fixed by reading it: a rule to a line, in a body alternatives bind weakest, then juxtaposition,
and a repetition belongs to the part right before it. A body is read one character at a time by `step`. Between two
characters, `State` holds the token that has been begun and, for each open group, the alternatives and the row read
so far.
-/

namespace RecordGrammar.Reading

def isNameChar (c : Char) : Bool := c.isAlphanum || c = '-'

/-- What an escape in a literal stands for. -/
def literalEscape? : Char → Option Char
  | '\\' => some '\\'
  | '"' => some '"'
  | 'n' => some '\n'
  | 'r' => some '\r'
  | 't' => some '\t'
  | _ => none

/-- The end of what has been read of a class: a character may become the first one of a range. -/
inductive Pending where
  | none
  | char (c : Char)
  | dash (first : Char)
deriving DecidableEq

/-- What has been read of a class. -/
structure ClassPart where
  negated : Bool := false
  items : List ClassItem := []
  pending : Pending := .none
deriving DecidableEq

namespace ClassPart

/-- The members read so far. A dash behind which nothing comes stands for itself. -/
def allItems (k : ClassPart) : List ClassItem :=
  match k.pending with
  | .none => k.items
  | .char c => k.items ++ [.one { char := c }]
  | .dash c => k.items ++ [.one { char := c }, .one { char := '-' }]

def put (k : ClassPart) (c : Char) : ClassPart :=
  match k.pending with
  | .none => { k with pending := .char c }
  | .char a => { k with items := k.items ++ [.one { char := a }], pending := .char c }
  | .dash a => { k with items := k.items ++ [.range { char := a } { char := c }], pending := .none }

/-- A dash that is not escaped: behind a character it may be that of a range. -/
def putDash (k : ClassPart) : ClassPart :=
  match k.pending with
  | .char a => { k with pending := .dash a }
  | _ => k.put '-'

end ClassPart

inductive Mode where
  | between
  | name (read : List Char)
  | literal (read : List Char)
  | literalEscape (read : List Char)
  | cls (k : ClassPart)
  | classEscape (k : ClassPart)
  /-- Behind the mark of an escape of two digits. -/
  | classCode (k : ClassPart)
  | classCodeRest (k : ClassPart) (high : Nat)
  | count (read : Option Nat)
  | countTo (min : Nat) (read : Option Nat)
deriving DecidableEq

/-- The alternatives before the last one, and the parts of the last one. -/
structure Frame where
  alts : List Expr := []
  row : List Expr := []
deriving DecidableEq

def Frame.close (f : Frame) : Expr := .oneOf .spaced (f.alts ++ [.row .spaced f.row])

/-- What has been read of a body. -/
structure State where
  mode : Mode := .between
  frame : Frame := {}
  /-- The frames of the groups around, the innermost first. -/
  outer : List Frame := []
deriving DecidableEq

namespace State

def emit (s : State) (e : Expr) : State :=
  { s with mode := .between, frame := { s.frame with row := s.frame.row ++ [e] } }

def repeatLast (s : State) (times : Times) : Option State :=
  match s.frame.row.getLast? with
  | some e => some { s with mode := .between, frame := { s.frame with row := s.frame.row.dropLast ++ [.repeated e times] } }
  | none => none

/-- A name ends where another token begins. -/
def endName (s : State) : State :=
  match s.mode with
  | .name read => s.emit (.rule (String.ofList read))
  | _ => s

end State

/-- The value of a number with one more digit. -/
def addDigit? (n : Option Nat) (c : Char) : Option Nat :=
  if c.isDigit then some (10 * n.getD 0 + (c.toNat - 0x30)) else none

def begin (s : State) (c : Char) : Option State :=
  match c with
  | ' ' => some s
  | '"' => some { s with mode := .literal [] }
  | '[' => some { s with mode := .cls {} }
  | '(' => some { s with frame := {}, outer := s.frame :: s.outer }
  | ')' =>
    match s.outer with
    | f :: outer => some { s with frame := { f with row := f.row ++ [.group s.frame.close] }, outer }
    | [] => none
  | '|' => some { s with frame := { alts := s.frame.alts ++ [.row .spaced s.frame.row], row := [] } }
  | '?' => s.repeatLast .optional
  | '+' => s.repeatLast .some
  | '\x7b' => some { s with mode := .count none }
  | c => if isNameChar c then some { s with mode := .name [c] } else none

def step (s : State) (c : Char) : Option State :=
  match s.mode with
  | .between => begin s c
  | .name read =>
    if isNameChar c then some { s with mode := .name (read ++ [c]) } else begin s.endName c
  | .literal read =>
    if c = '"' then some (s.emit (.literal (String.ofList read)))
    else if c = '\\' then some { s with mode := .literalEscape read }
    else some { s with mode := .literal (read ++ [c]) }
  | .literalEscape read => (literalEscape? c).map fun d => { s with mode := .literal (read ++ [d]) }
  | .cls k =>
    if c = ']' then some (s.emit (.cls { negated := k.negated, items := k.allItems }))
    else if c = '\\' then some { s with mode := .classEscape k }
    else if c = '^' ∧ k = {} then some { s with mode := .cls { negated := true } }
    else if c = '-' then some { s with mode := .cls k.putDash }
    else some { s with mode := .cls (k.put c) }
  | .classEscape k =>
    if c = 'x' then some { s with mode := .classCode k }
    else some { s with mode := .cls (k.put (if c = 'n' then '\n' else if c = 't' then '\t' else if c = 'r' then '\r' else c)) }
  | .classCode k => (Text.hexValue? c).map fun n => { s with mode := .classCodeRest k n }
  | .classCodeRest k high => (Text.hexValue? c).map fun n => { s with mode := .cls (k.put (Char.ofNat (16 * high + n))) }
  | .count read =>
    match read, c with
    | some n, '\x7d' => s.repeatLast (.exactly n)
    | some n, ',' => some { s with mode := .countTo n none }
    | read, c => (addDigit? read c).map fun n => { s with mode := .count (some n) }
  | .countTo min read =>
    match read, c with
    | some n, '\x7d' => s.repeatLast (.between min n)
    | read, c => (addDigit? read c).map fun n => { s with mode := .countTo min (some n) }

/-- What is read once the characters end. -/
def finish (s : State) : Option Expr :=
  match s.endName with
  | { mode := .between, frame, outer := [] } => some frame.close
  | _ => none

def readExpr (cs : List Char) : Option Expr := (cs.foldlM step {}).bind finish

/-- What may follow a backslash in a class. -/
def classEscapes : List Char := ['\\', ']', '^', '-', '"', 'n', 't', 'x']

/-- As `step`, but with no other escapes in a class than these. -/
def strictStep (s : State) (c : Char) : Option State :=
  match s.mode with
  | .classEscape _ => if c ∈ classEscapes then step s c else none
  | _ => step s c

def readStrictly (cs : List Char) : Option Expr := (cs.foldlM strictStep {}).bind finish

def readRule (line : String) : Option Rule :=
  let name := line.toList.takeWhile isNameChar
  match Text.dropStart? " ::= " (String.ofList (line.toList.dropWhile isNameChar)) with
  | some body => (readExpr body.toList).map (String.ofList name, ·)
  | none => none

def readRules (text : String) : Option RuleTable :=
  ((Text.pieces '\n' text).mapM readRule).map RuleTable.mk

end RecordGrammar.Reading
