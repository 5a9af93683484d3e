import RecordGrammar.Grammar.Format
import RecordGrammar.Grammar.RuleTable
import RecordGrammar.Grammar.Segment
import RecordGrammar.Grammar.Thinking
import RecordGrammar.Shape.Basic

/-!
# The grammar of a shape

Rules are named for their place in the shape: `root`, then a segment for each field and `item` for
the elements of an array. Every field has a rule of its own, ending in `kv`, every array one for its
elements, and every string with allowed values or a format one for itself. All else is written where
it stands. A rule is added only once all rules that its body names are there.
-/

namespace RecordGrammar

structure Progress where
  table : RuleTable := {}
  notices : List Notice := []

/-- A step of compiling. What it has made is kept also if it fails. -/
abbrev Compiling (α : Type) := ExceptT GrammarError (StateM Progress) α

namespace Compiling

/-- Whether there is a rule of this name already. -/
def hasRule (name : String) : Compiling Bool := return (← get).table.contains name

def note (ns : List Notice) : Compiling Unit := modify fun p => { p with notices := p.notices ++ ns }

/-- Adds a rule. Its name must be new. -/
def addRule (name : String) (body : Expr) : Compiling Unit := do
  match (← get).table.insert? name body with
  | some table => modify fun p => { p with table }
  | none => throw (.duplicateRule name)

/-- Adds a rule unless one of this name is there, and refers to it. -/
def ensureRule (name : String) (body : Expr) : Compiling Expr := do
  unless ← hasRule name do
    note [.registeringRule name]
    addRule name body
  return .rule name

end Compiling

open Compiling

/-- The `i`-th name to try for a field: the base itself, then the base with a number from 2 on. -/
def pathCandidate (base : String) (i : Nat) : String :=
  if i = 0 then base else base ++ "-" ++ toString (i + 1)

/-- Whether a field can have this path: no sibling has it, and neither it nor its key rule is the
name of a rule. -/
def isFreePath (table : RuleTable) (used : List String) (path : String) : Bool :=
  !(used.contains path || table.contains path || table.contains (path ++ "-kv"))

/-- The first candidate that is free. Each name in use rules out one candidate, and each rule at most
two, so among as many candidates and one more there is a free one. -/
def freePath (table : RuleTable) (used : List String) (base : String) : String :=
  let taken := used.length + 2 * table.size
  pathCandidate base (((List.range taken).find? fun i => isFreePath table used (pathCandidate base i)).getD taken)

/-- The bounds in force: those of the shape, else the default ones. -/
def effectiveLimits (min max : Option Nat) (default : Limits) : Nat × Nat :=
  (min.getD default.min, max.getD default.max)

/-- An array of `min` to `max` elements, given the rule of its elements. -/
def arrayExpr (item : String) (min max : Nat) : Expr :=
  let element := Expr.rule item
  let more := Expr.group (.row .spaced [.word ",", .space, element])
  let elements : List Expr :=
    if max = 0 then []
    else if min = 0 then
      if max = 1 then [.maybe element]
      else [.maybe (.group (.row .spaced [element, .repeated more (.between 0 (max - 1))]))]
    else if min = max then
      if max = 1 then [element] else [element, .repeated more (.exactly (max - 1))]
    else [element, .repeated more (.between (min - 1) (max - 1))]
  .row .spaced ([.word "[", .space] ++ elements ++ [.word "]", .space])

/-- An object, given the rules of its fields. -/
def objectExpr (keyRules : List String) : Expr :=
  let fields := (keyRules.map Expr.rule).intersperse (.row .spaced [.word ",", .space])
  .row .spaced ([.word "\x7b", .space] ++ fields ++ [.word "\x7d", .space])

/-- A field: its key, a colon, and its value. -/
def fieldExpr (name : String) (value : Expr) : Expr :=
  .row .spaced [.jsonText name, .space, .word ":", .space, value]

def scalarExpr : Scalar → Expr
  | .integer => integerExpr
  | .decimal => decimalExpr
  | .boolean => booleanExpr
  | .date => dateExpr
  | .guid => guidExpr

def compileString (settings : GrammarSettings) (text : StringShape) (path : String) : Compiling Expr := do
  if text.allowed ≠ [] then ensureRule path (.anyText text.allowed)
  else
    match text.format with
    | some "" | none =>
      let (min, max) := effectiveLimits text.minLength text.maxLength settings.lengths
      if max < min then
        note [.lengthClamped path min max]
        return boundedStringExpr max max
      return boundedStringExpr min max
    | some format =>
      let (body, ns) ← (StringFormat.ofString format).compile settings
      note ns
      ensureRule path body

/-- The bounds of the array at a path, once reversed ones are mended or refused. -/
def arrayLimits (settings : GrammarSettings) (minItems maxItems : Option Nat) (path : String) :
    Compiling (Nat × Nat) := do
  let (min, max) := effectiveLimits minItems maxItems settings.items
  if max < min then
    if !settings.clampArrayBounds then throw (.reversedItems path min max)
    note [.itemsClamped path min max]
    return (max, max)
  return (min, max)

mutual

/-- Compiles the shape at a path: an expression to stand in its place, which may be the name of a
rule just added. -/
def compileShape (settings : GrammarSettings) : Shape → String → Compiling Expr
  | .string text, path => compileString settings text path
  | .scalar kind _, _ => return scalarExpr kind
  | .enum _ values, _ => return .anyText values
  | .array element minItems maxItems _, path => do
    let item := path ++ "-item"
    unless ← hasRule item do
      let value ← compileShape settings element item
      if value ≠ .rule item then
        let _ ← ensureRule item value
    let (min, max) ← arrayLimits settings minItems maxItems path
    return arrayExpr item min max
  | .object _ fields, path => do
    return objectExpr (← compileFields settings fields path [])
  | .custom kind, _ => throw (.unknownKind kind)

/-- Compiles the fields of the object at a path, and gives the names of their rules. `used` holds the
paths of the fields before them. -/
def compileFields (settings : GrammarSettings) :
    List (Field Shape) → String → List String → Compiling (List String)
  | [], _, _ => return []
  | ⟨name, type, _⟩ :: rest, path, used => do
    let fieldPath := freePath (← get).table used (path ++ "-" ++ Segment.ofName name)
    let value ← compileShape settings type fieldPath
    let keyRule := fieldPath ++ "-kv"
    addRule keyRule (fieldExpr name value)
    return keyRule :: (← compileFields settings rest path (fieldPath :: used))

end

def addRules : List (String × Expr) → Compiling Unit
  | [] => return ()
  | (name, body) :: rest => do
    addRule name body
    addRules rest

/-- Compiles the whole grammar of a shape. -/
def compileGrammar (settings : GrammarSettings) (shape : Shape) : Compiling Unit := do
  addRules [("char", charBody settings.delimiters), ("space", spaceBody)]
  if settings.includeThinking then
    addRules (thinkingRules settings.thinkingEnd settings.maxThinkingLength)
  let root ← compileShape settings shape "root"
  if root ≠ .rule "root" then addRule "root" root
  if settings.includeThinking then
    addRule "thinking-root" (thinkingEntry settings.thinkingStart settings.thinkingEnd.text)
  note [.grammarCompiled (← get).table.size settings.entryRule]

/-- The grammar of a shape and the notices made on the way. -/
def Shape.grammar (shape : Shape) (settings : GrammarSettings) : Except GrammarError RuleTable × List Notice :=
  match (compileGrammar settings shape).run.run {} with
  | (.ok _, p) => (.ok p.table, p.notices)
  | (.error e, p) => (.error e, p.notices)

end RecordGrammar
