/-!
# Notices

What reading a source and compiling a shape have to report beside their result, in the order in
which it occurs. Notices made before a failure are kept.
-/

namespace RecordGrammar

inductive Level where
  | debug
  | info
  | warning
deriving DecidableEq

def Level.text : Level → String
  | debug => "DEBUG"
  | info => "INFO"
  | warning => "WARNING"

inductive Notice where
  /-- A reference is followed to its definition. -/
  | followingReference (reference : String)
  /-- An object of a schema document has been read. -/
  | objectRead (name : String) (fields : Nat)
  | modelRead (name : String) (fields : Nat)
  /-- A rule is about to be added to the grammar. -/
  | registeringRule (name : String)
  /-- A string format means nothing; `shown` is its quoted text. -/
  | unknownFormat (shown : String)
  /-- The bounds on the length of the string at a path are reversed. -/
  | lengthClamped (path : String) (min max : Nat)
  /-- The bounds on the number of elements of the array at a path are reversed. -/
  | itemsClamped (path : String) (min max : Nat)
  | grammarCompiled (rules : Nat) (entry : String)
deriving DecidableEq

namespace Notice

def level : Notice → Level
  | followingReference _ | objectRead _ _ | modelRead _ _ | registeringRule _ => .debug
  | grammarCompiled _ _ => .info
  | unknownFormat _ | lengthClamped _ _ _ | itemsClamped _ _ _ => .warning

def message : Notice → String
  | followingReference reference => "Following " ++ reference
  | objectRead name fields => s!"Parsed object '{name}' with {fields} fields"
  | modelRead name fields => s!"Read model '{name}' with {fields} fields"
  | registeringRule name => "Registering rule " ++ name
  | unknownFormat shown =>
    s!"Unrecognized string format {shown}, falling back to the default string rule"
  | lengthClamped path min max => s!"{path}: min_length {min} exceeds max_length {max}, clamping"
  | itemsClamped path min max => s!"{path}: min_items {min} exceeds max_items {max}, clamping"
  | grammarCompiled rules entry => s!"Compiled grammar with {rules} rules (entry: {entry})"

end Notice

/-- A computation that may fail and keeps its notices whether it does or not. -/
abbrev Reporting (ε α : Type) := ExceptT ε (StateM (List Notice)) α

def report {ε : Type} (n : Notice) : Reporting ε Unit := modify (· ++ [n])

/-- The outcome of a computation and its notices. -/
def Reporting.outcome {ε α : Type} (x : Reporting ε α) : Except ε α × List Notice := x.run.run []

end RecordGrammar
