import RecordGrammar.Text.Rest

/-!
# Validity of regular expressions

A regular expression is read from left to right, one construct at a time, with a stack of the groups
that are open. Of each construct only the width matters, the number of characters it can match: a
look-behind must have one width. Groups may be numbered or named, atomic, optional or conditional;
flags may be set at the start or for a group.

Some rare checks are not made. Any character beyond ASCII may stand in the name of a group. The names of
characters are not looked up, and a named character counts as the first of all in a range. Flags set at the
start in several places are not compared, and the counts of a repetition have no upper limit.
-/

namespace RecordGrammar.JsonSchema

open Text

namespace Pattern

/-- The least and the greatest number of characters a construct matches, the latter if it is bounded. -/
structure Width where
  least : Nat
  greatest : Option Nat
deriving DecidableEq

namespace Width

def append (a b : Width) : Width := ⟨a.least + b.least, do return (← a.greatest) + (← b.greatest)⟩

def either (a b : Width) : Width := ⟨min a.least b.least, do return max (← a.greatest) (← b.greatest)⟩

/-- A construct repeated from `min` to `max` times. -/
def repeated (w : Width) (min : Nat) (max : Option Nat) : Width :=
  ⟨w.least * min, if w.greatest = some 0 || max = some 0 then some 0 else do return (← w.greatest) * (← max)⟩

def zero : Width := ⟨0, some 0⟩

def one : Width := ⟨1, some 1⟩

end Width

inductive Purpose where
  | whole
  | plain
  | capture (number : Nat)
  | ahead
  /-- A look-behind, with the number of groups when the outermost one around it was opened. -/
  | behind (outer : Option Nat)
  | conditional
deriving DecidableEq

/-- The construct read last in a row. -/
inductive Last where
  | nothing
  | anchor
  | item (w : Width)
  | repetition (w : Width)
deriving DecidableEq

/-- The width of the construct read last. -/
def Last.width : Last → Width
  | nothing | anchor => .zero
  | item w | repetition w => w

structure Group where
  purpose : Purpose
  verbose : Bool
  bars : Nat := 0
  /-- The width of the alternatives that are complete. -/
  alternatives : Option Width := none
  /-- The width of the current one, up to the construct read last. -/
  before : Width := .zero
  last : Last := .nothing

def Group.current (g : Group) : Width := g.before.append g.last.width

def Group.total (g : Group) : Width := (g.alternatives.map (·.either g.current)).getD g.current

def Group.push (g : Group) (l : Last) : Group := { g with before := g.current, last := l }

structure State where
  /-- The groups that are open, the innermost first. -/
  innermost : Group
  outer : List Group := []
  /-- The widths of the numbered groups, from number one on; none for one that is open. -/
  widths : List (Option Width) := []
  names : List (String × Nat) := []
  asked : List Nat := []
  /-- The number of groups before the outermost look-behind that is open. -/
  lookBehind : Option Nat := none

/-- The outcome of reading a construct: nothing if it is invalid. -/
abbrev Step (s : List Char) := Option (State × Rest s)

namespace State

def push (st : State) (l : Last) : State := { st with innermost := st.innermost.push l }

def enter (st : State) (purpose : Purpose) (verbose : Bool) : State :=
  { st with innermost := { purpose, verbose }, outer := st.innermost :: st.outer }

/-- The width of a complete numbered group. -/
def closedWidth? (st : State) (number : Nat) : Option Width :=
  if number = 0 then none else ((st.widths[number - 1]?).getD none)

/-- Whether a numbered group may be referred to from here: it is complete, and not inside the same
look-behind. -/
def canRefer (st : State) (number : Nat) : Bool :=
  (st.closedWidth? number).isSome && (match st.lookBehind with
    | none => true
    | some n => number ≤ n)

/-- A reference back to a numbered group. -/
def refer? (st : State) (number : Nat) : Option State :=
  if st.canRefer number then (st.closedWidth? number).map fun w => st.push (.item w) else none

/-- Opens a numbered group, which may have a name of its own. -/
def capture? (st : State) (name : Option String) : Option State :=
  let number := st.widths.length + 1
  let opened := { st with widths := st.widths ++ [none] }.enter (.capture number) st.innermost.verbose
  match name with
  | none => some opened
  | some n => if st.names.any (·.1 == n) then none else some { opened with names := (n, number) :: st.names }

def bar? (st : State) : Option State :=
  let g := st.innermost
  if g.purpose = .conditional && 1 ≤ g.bars then none
  else some { st with innermost := { purpose := g.purpose, verbose := g.verbose, bars := g.bars + 1, alternatives := some g.total } }

def close? (st : State) : Option State :=
  match st.outer with
  | [] => none
  | parent :: outer =>
    let g := st.innermost
    let w := g.total
    let left : State := { st with innermost := parent, outer }
    match g.purpose with
    | .whole => none
    | .plain => some (left.push (.item w))
    | .capture number => some ({ left with widths := st.widths.set (number - 1) (some w) }.push (.item w))
    | .ahead => some (left.push (.item .zero))
    | .behind before =>
      if w.greatest = some w.least then some ({ left with lookBehind := before }.push (.item .zero)) else none
    | .conditional => some (left.push (.item (if g.bars = 0 then ⟨0, w.greatest⟩ else w)))

def repeat? (st : State) (min : Nat) (max : Option Nat) : Option State :=
  match st.innermost.last with
  | .item w =>
    some { st with innermost := { st.innermost with last := .repetition (w.repeated min max) } }
  | _ => none

end State

/-- Whether the character may stand in a name, at its start or further on. -/
def isNameChar (c : Char) : Bool := c.isAlphanum || c = '_' || 0x7F < c.toNat

/-- Whether the text is the name of a group. -/
def isGroupName : List Char → Bool
  | [] => false
  | c :: cs => isNameChar c && !c.isDigit && cs.all isNameChar

/-- Whether the character is a digit in base eight. -/
def isOctalDigit (c : Char) : Bool := '0' ≤ c && c ≤ '7'

inductive Escape where
  | char (code : Nat)
  | cls
  | place
  | group (number : Nat)

/-- The value of a row of octal digits. -/
def valueOfOctal (ds : List Char) : Nat := ds.foldl (fun n c => 8 * n + (c.toNat - 0x30)) 0

/-- Reads an escape of a code point in so many hexadecimal digits. -/
def readCode (width : Nat) (s : List Char) : Option (Escape × RestOrAll s) :=
  match readUpTo isHexDigit width s with
  | (ds, rest) =>
    if ds.length = width && valueOfHexDigits ds < 0x110000 then some (.char (valueOfHexDigits ds), rest) else none

/-- The character that a letter behind a backslash stands for. -/
def controlLetter? : Char → Option Nat
  | 'a' => some 7
  | 'f' => some 12
  | 'n' => some 10
  | 'r' => some 13
  | 't' => some 9
  | 'v' => some 11
  | _ => none

/-- Whether the letter behind a backslash stands for a class. -/
def isClassLetter (c : Char) : Bool := ['d', 'D', 's', 'S', 'w', 'W'].contains c

/-- Reads the part of an escape that is the same inside and outside a class, of which the letter has
been read. -/
def readLetterEscape (c : Char) (s : List Char) : Option (Escape × RestOrAll s) :=
  match controlLetter? c with
  | some code => some (.char code, RestOrAll.all s)
  | none =>
    if isClassLetter c then some (.cls, RestOrAll.all s)
    else if c = 'x' then readCode 2 s
    else if c = 'u' then readCode 4 s
    else if c = 'U' then readCode 8 s
    else if c = 'N' then
      match s with
      | '\x7b' :: r =>
        match readName '\x7d' r with
        | some (_, ⟨rest, h⟩) => some (.char 0, ⟨rest, by simp only [List.length_cons]; omega⟩)
        | none => none
      | _ => none
    else if c.isAlpha then none
    else some (.char c.toNat, RestOrAll.all s)

/-- Reads an escape outside a class, of which the backslash has been read. -/
def readEscape (s : List Char) : Option (Escape × Rest s) :=
  match s with
  | [] => none
  | c :: r =>
    if ['A', 'b', 'B', 'Z'].contains c then some (.place, Rest.tail c r)
    else if c = '0' then
      match readUpTo isOctalDigit 2 r with
      | (ds, rest) => some (.char (valueOfOctal ds), RestOrAll.behind c rest)
    else if c.isDigit then
      match readUpTo Char.isDigit 1 r with
      | ([d], ⟨e :: rest, h⟩) =>
        if isOctalDigit c && isOctalDigit d && isOctalDigit e then
          let code := valueOfOctal [c, d, e]
          if code ≤ 0o377 then some (.char code, ⟨rest, by simp only [List.length_cons] at *; omega⟩) else none
        else some (.group (valueOfDigits [c, d]), ⟨e :: rest, by simp only [List.length_cons] at *; omega⟩)
      | (ds, rest) => some (.group (valueOfDigits (c :: ds)), RestOrAll.behind c rest)
    else
      match readLetterEscape c r with
      | some (e, rest) => some (e, RestOrAll.behind c rest)
      | none => none

/-- Reads an escape inside a class, of which the backslash has been read. -/
def readClassEscape (s : List Char) : Option (Escape × Rest s) :=
  match s with
  | [] => none
  | c :: r =>
    if c = 'b' then some (.char 8, Rest.tail c r)
    else if isOctalDigit c then
      match readUpTo isOctalDigit 2 r with
      | (ds, rest) =>
        let code := valueOfOctal (c :: ds)
        if code ≤ 0o377 then some (.char code, RestOrAll.behind c rest) else none
    else if c.isDigit then none
    else
      match readLetterEscape c r with
      | some (e, rest) => some (e, RestOrAll.behind c rest)
      | none => none

/-- Reads a character or an escape of a class. -/
def readClassChar (s : List Char) : Option (Escape × Rest s) :=
  match s with
  | [] => none
  | '\\' :: r =>
    match readClassEscape r with
    | some (e, rest) => some (e, Rest.cons '\\' rest)
    | none => none
  | c :: r => some (.char c.toNat, Rest.tail c r)

/-- Reads a dash and what it ends: the class, or a range from `low`. Nothing is read if there is no
dash; the flag says whether the class has ended. -/
def readRangeEnd (low : Escape) (s : List Char) : Option (Bool × RestOrAll s) :=
  match s with
  | '-' :: q =>
    match q with
    | ']' :: r => some (true, ⟨r, by simp only [List.length_cons]; omega⟩)
    | t =>
      match low, readClassChar t with
      | .char a, some (.char b, ⟨rest, h⟩) =>
        if b < a then none else some (false, ⟨rest, by simp only [List.length_cons]; omega⟩)
      | _, _ => none
  | s => some (false, RestOrAll.all s)

/-- Reads the members of a class and its closing bracket. A bracket that is the first member stands
for itself, and so does a dash before the closing bracket. -/
def readClass (isFirst : Bool) (s : List Char) : Option (Rest s) :=
  match s with
  | [] => none
  | c :: r =>
    if c = ']' && !isFirst then some (Rest.tail c r)
    else
      match readClassChar (c :: r) with
      | none => none
      | some (low, ⟨q, hq⟩) =>
        match readRangeEnd low q with
        | none => none
        | some (true, ⟨rest, h⟩) => some ⟨rest, by omega⟩
        | some (false, ⟨p, hp⟩) =>
          match readClass false p with
          | some ⟨rest, h⟩ => some ⟨rest, by omega⟩
          | none => none
termination_by s.length
decreasing_by simp only [List.length_cons] at *; omega

/-- Reads the bounds of a repetition and its closing brace, of which the opening one has been read. A
bound may be left out, but not both and the comma. -/
def readBounds (s : List Char) : Option ((Option Nat × Option Nat) × Rest s) :=
  match readWhile Char.isDigit s with
  | (ds, ⟨'\x7d' :: rest, h⟩) =>
    let n := valueOfDigits ds
    if ds.isEmpty then none else some ((some n, some n), ⟨rest, by simp only [List.length_cons] at h; omega⟩)
  | (ds, ⟨',' :: q, h⟩) =>
    match readWhile Char.isDigit q with
    | (es, ⟨'\x7d' :: rest, hr⟩) =>
      let bound (ds : List Char) : Option Nat := if ds.isEmpty then none else some (valueOfDigits ds)
      some ((bound ds, bound es), ⟨rest, by simp only [List.length_cons] at *; omega⟩)
    | _ => none
  | _ => none

def isFlag (c : Char) : Bool := ['i', 'm', 's', 'x', 'a', 'u'].contains c

/-- Whether flags may be set together: of those that choose the alphabet there is at most one. -/
def areCompatible (flags : List Char) : Bool := !(flags.contains 'a' && flags.contains 'u')

/-- Reads flags, of which at least one is there, and what ends them: a parenthesis if they are meant
for the whole expression, else a colon. Flags behind a dash are switched off. -/
def readFlags (st : State) (s : List Char) : Step s :=
  match readWhile isFlag s with
  | (on, ⟨')' :: rest, h⟩) =>
    let g := st.innermost
    let isStart := st.outer.isEmpty && g.bars = 0 && g.last = .nothing
    if on.isEmpty || !areCompatible on || !isStart then none
    else
      let verbose := g.verbose || on.contains 'x'
      some ({ st with innermost := { g with verbose } }, ⟨rest, by simp only [List.length_cons] at h; omega⟩)
  | (on, ⟨':' :: rest, h⟩) =>
    if on.isEmpty || !areCompatible on then none
    else
      some (st.enter .plain (st.innermost.verbose || on.contains 'x'), ⟨rest, by simp only [List.length_cons] at h; omega⟩)
  | (on, ⟨'-' :: q, h⟩) =>
    match readWhile isFlag q with
    | (off, ⟨':' :: rest, hr⟩) =>
      if off.isEmpty || !areCompatible on || off.any (fun f => f = 'a' || f = 'u' || on.contains f) then none
      else
        let verbose := (st.innermost.verbose || on.contains 'x') && !off.contains 'x'
        some (st.enter .plain verbose, ⟨rest, by simp only [List.length_cons] at *; omega⟩)
    | _ => none
  | _ => none

/-- Reads a condition on a group, of which the second parenthesis has been read. -/
def readCondition (st : State) (s : List Char) : Step s :=
  match readName ')' s with
  | none => none
  | some (name, rest) =>
    let entered := st.enter .conditional st.innermost.verbose
    if isGroupName name then
      match st.names.lookup (String.ofList name) with
      | some number => if st.lookBehind.isNone || st.canRefer number then some (entered, rest) else none
      | none => none
    else if name.all Char.isDigit && valueOfDigits name ≠ 0 then
      let number := valueOfDigits name
      if st.lookBehind.isNone || st.canRefer number then
        some ({ entered with asked := number :: st.asked }, rest)
      else none
    else none

/-- Skips a comment up to and over its end, which may be missing. A character behind a backslash ends
no comment, and no expression ends in a backslash. The flag says whether the end was there. -/
def skipComment (stop : Char) : (s : List Char) → Option (Bool × RestOrAll s)
  | [] => some (false, RestOrAll.all [])
  | '\\' :: [] => none
  | '\\' :: _ :: r =>
    (skipComment stop r).map fun (found, ⟨rest, h⟩) => (found, ⟨rest, by simp only [List.length_cons]; omega⟩)
  | c :: r =>
    if c = stop then some (true, (Rest.tail c r).orAll)
    else
      (skipComment stop r).map fun (found, rest) => (found, (RestOrAll.behind c rest).orAll)

/-- Reads the opening of a group, of which the parenthesis has been read. -/
def readOpening (st : State) (s : List Char) : Step s :=
  let verbose := st.innermost.verbose
  match s with
  | '?' :: 'P' :: '<' :: r =>
    match readName '>' r with
    | some (name, ⟨rest, h⟩) =>
      if isGroupName name then
        (st.capture? (some (String.ofList name))).map fun st =>
          (st, ⟨rest, by simp only [List.length_cons]; omega⟩)
      else none
    | none => none
  | '?' :: 'P' :: '=' :: r =>
    match readName ')' r with
    | some (name, ⟨rest, h⟩) =>
      match st.names.lookup (String.ofList name) with
      | some number => (st.refer? number).map fun st => (st, ⟨rest, by simp only [List.length_cons]; omega⟩)
      | none => none
    | none => none
  | '?' :: ':' :: r => some (st.enter .plain verbose, ⟨r, by simp only [List.length_cons]; omega⟩)
  | '?' :: '>' :: r => some (st.enter .plain verbose, ⟨r, by simp only [List.length_cons]; omega⟩)
  | '?' :: '#' :: r =>
    match skipComment ')' r with
    | some (true, ⟨rest, h⟩) => some (st, ⟨rest, by simp only [List.length_cons]; omega⟩)
    | _ => none
  | '?' :: '=' :: r => some (st.enter .ahead verbose, ⟨r, by simp only [List.length_cons]; omega⟩)
  | '?' :: '!' :: r => some (st.enter .ahead verbose, ⟨r, by simp only [List.length_cons]; omega⟩)
  | '?' :: '<' :: c :: r =>
    if c = '=' || c = '!' then
      let opened := st.enter (.behind st.lookBehind) verbose
      some ({ opened with lookBehind := some (st.lookBehind.getD st.widths.length) },
        ⟨r, by simp only [List.length_cons]; omega⟩)
    else none
  | '?' :: '(' :: r =>
    match readCondition st r with
    | some (st, ⟨rest, h⟩) => some (st, ⟨rest, by simp only [List.length_cons]; omega⟩)
    | none => none
  | '?' :: r =>
    match readFlags st r with
    | some (st, ⟨rest, h⟩) => some (st, ⟨rest, by simp only [List.length_cons]; omega⟩)
    | none => none
  | _ => none

/-- Repeats the construct read last, and reads the mark that makes the repetition lazy or possessive. -/
def readRepetition (st : State) (min : Nat) (max : Option Nat) (s : List Char) : Option (State × RestOrAll s) :=
  match st.repeat? min max with
  | none => none
  | some st =>
    match s with
    | '?' :: r => some (st, (Rest.tail '?' r).orAll)
    | '+' :: r => some (st, (Rest.tail '+' r).orAll)
    | s => some (st, RestOrAll.all s)

/-- Reads a repetition whose first character has been read. -/
def readRepetitionOf (st : State) (min : Nat) (max : Option Nat) (c : Char) (r : List Char) : Step (c :: r) :=
  match readRepetition st min max r with
  | some (st, rest) => some (st, RestOrAll.behind c rest)
  | none => none

/-- What separates constructs when the expression is laid out over several lines. -/
def isLayout (c : Char) : Bool := [' ', '\t', '\n', '\r', '\x0b', '\x0c'].contains c

def readConstruct (st : State) (s : List Char) : Step s :=
  match s with
  | [] => none
  | '\\' :: r =>
    match readEscape r with
    | none => none
    | some (e, rest) =>
      let after : Rest ('\\' :: r) := Rest.cons '\\' rest
      match e with
      | .place => some (st.push .anchor, after)
      | .group number => (st.refer? number).map (·, after)
      | _ => some (st.push (.item .one), after)
  | '[' :: '^' :: r =>
    match readClass true r with
    | some ⟨rest, h⟩ => some (st.push (.item .one), ⟨rest, by simp only [List.length_cons]; omega⟩)
    | none => none
  | '[' :: r =>
    match readClass true r with
    | some rest => some (st.push (.item .one), Rest.cons '[' rest)
    | none => none
  | '?' :: r => readRepetitionOf st 0 (some 1) '?' r
  | '*' :: r => readRepetitionOf st 0 none '*' r
  | '+' :: r => readRepetitionOf st 1 none '+' r
  | '\x7b' :: r =>
    match readBounds r with
    | none => some (st.push (.item .one), Rest.tail '\x7b' r)
    | some ((min, max), ⟨q, h⟩) =>
      if max.any (· < min.getD 0) then none
      else
        match readRepetition st (min.getD 0) max q with
        | some (st, ⟨rest, hr⟩) => some (st, ⟨rest, by simp only [List.length_cons]; omega⟩)
        | none => none
  | '(' :: '?' :: r =>
    match readOpening st ('?' :: r) with
    | some (st, ⟨rest, h⟩) => some (st, ⟨rest, by simp only [List.length_cons] at *; omega⟩)
    | none => none
  | '(' :: r => (st.capture? none).map fun st => (st, Rest.tail '(' r)
  | ')' :: r => st.close?.map fun st => (st, Rest.tail ')' r)
  | '|' :: r => st.bar?.map fun st => (st, Rest.tail '|' r)
  | c :: r =>
    if c = '^' || c = '$' then some (st.push .anchor, Rest.tail c r)
    else if st.innermost.verbose && isLayout c then some (st, Rest.tail c r)
    else if st.innermost.verbose && c = '#' then
      match skipComment '\n' r with
      | some (_, rest) => some (st, RestOrAll.behind c rest)
      | none => none
    else some (st.push (.item .one), Rest.tail c r)

/-- Reads construct after construct up to the end. -/
def readAll (st : State) (s : List Char) : Option State :=
  if s.isEmpty then some st
  else
    match readConstruct st s with
    | none => none
    | some (next, ⟨rest, _⟩) => readAll next rest
termination_by s.length

end Pattern

/-- Whether the text is a valid regular expression. -/
def isPattern (text : String) : Bool :=
  match Pattern.readAll { innermost := { purpose := .whole, verbose := false } } text.toList with
  | some st => st.outer.isEmpty && st.asked.all (· ≤ st.widths.length)
  | none => false

end RecordGrammar.JsonSchema
