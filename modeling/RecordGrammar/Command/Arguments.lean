import RecordGrammar.Text.Split

/-!
# Command line arguments

A command declares its options by a long name and perhaps a letter. An option is a flag or takes a value,
which stands behind an equals sign, behind the letter, or in the next argument. Several letters may
share one argument. `--` ends the options.
-/

namespace RecordGrammar.Command

inductive UsageError where
  | noSuchOption (name : String)
  | valueMissing (name : String)
  | valueNotTaken (name : String)
  | unexpectedArgument (text : String)
  | notAnInteger (name value : String)
  | noSuchFile (path : String)
  | noSuchCommand (name : String)
deriving DecidableEq

def UsageError.message : UsageError → String
  | noSuchOption name => "No such option: " ++ name
  | valueMissing name => s!"Option '{name}' requires an argument."
  | valueNotTaken name => s!"Option '{name}' does not take a value."
  | unexpectedArgument text => s!"Got unexpected extra argument ({text})"
  | notAnInteger name value => s!"Invalid value for '{name}': '{value}' is not a valid integer."
  | noSuchFile path => s!"Invalid value for '--schema': '{path}' is no file."
  | noSuchCommand name => s!"No such command '{name}'."

structure OptionSpec (κ : Type) where
  key : κ
  /-- The name, which stands behind two dashes. -/
  name : String
  /-- The letter, which stands behind one dash. -/
  letter : Option Char := none
  takesValue : Bool := false

/-- The options that were given, in order, and the arguments that are none. -/
structure Arguments (κ : Type) where
  options : List (κ × String) := []
  rest : List String := []

namespace Arguments

variable {κ : Type}

/-- The same arguments with options before the others. -/
def after (given : List (κ × String)) (a : Arguments κ) : Arguments κ := { a with options := given ++ a.options }

/-- The value of an option; of several, the last one counts. -/
def value? [BEq κ] (a : Arguments κ) (key : κ) : Option String :=
  (a.options.reverse.find? (·.1 == key)).map (·.2)

def has [BEq κ] (a : Arguments κ) (key : κ) : Bool := (a.value? key).isSome

end Arguments

/-- What one argument says: options with their values, and perhaps one whose value is the next one. -/
structure Item (κ : Type) where
  given : List (κ × String) := []
  awaiting : Option (OptionSpec κ) := none

/-- Reads an option by its long name, perhaps with a value behind an equals sign; nothing, if there is
no option of that name. -/
def readLong? {κ : Type} (specs : List (OptionSpec κ)) (arg : String) : Option (Except UsageError (Item κ)) :=
  let (name, value) := Text.cutAtFirst '=' arg
  let attached := arg.toList.contains '='
  (specs.find? fun s => "--" ++ s.name == name).map fun s =>
    match s.takesValue, attached with
    | true, true => .ok { given := [(s.key, value)] }
    | true, false => .ok { awaiting := some s }
    | false, true => .error (.valueNotTaken name)
    | false, false => .ok { given := [(s.key, "")] }

/-- Reads options by their letters. What stands behind the letter of one that takes a value is that
value. -/
def readLetters {κ : Type} (specs : List (OptionSpec κ)) : List Char → Except UsageError (Item κ)
  | [] => .ok {}
  | c :: cs =>
    match specs.find? (·.letter == some c) with
    | none => .error (.noSuchOption (String.ofList ['-', c]))
    | some s =>
      if s.takesValue then
        if cs.isEmpty then .ok { awaiting := some s } else .ok { given := [(s.key, String.ofList cs)] }
      else do
        let item ← readLetters specs cs
        return { item with given := (s.key, "") :: item.given }

/-- Reads an argument that starts with a dash. -/
def readItem {κ : Type} (specs : List (OptionSpec κ)) (arg : String) : Except UsageError (Item κ) :=
  match readLong? specs arg with
  | some item => item
  | none =>
    match arg.toList with
    | '-' :: '-' :: _ => .error (.noSuchOption (Text.cutAtFirst '=' arg).1)
    | cs => readLetters specs (cs.drop 1)

def isOption (arg : String) : Bool := arg.length > 1 && arg.startsWith "-"

/-- Reads arguments. An argument that is no option ends them, unless options may follow it. -/
def readArguments {κ : Type} (specs : List (OptionSpec κ)) (interspersed : Bool) :
    List String → Except UsageError (Arguments κ)
  | [] => .ok {}
  | arg :: args =>
    if arg = "--" then .ok { rest := args }
    else if isOption arg then
      match readItem specs arg with
      | .error e => .error e
      | .ok ⟨given, none⟩ => return (← readArguments specs interspersed args).after given
      | .ok ⟨given, some s⟩ =>
        match args with
        | [] => .error (.valueMissing ("--" ++ s.name))
        | value :: args => return (← readArguments specs interspersed args).after (given ++ [(s.key, value)])
    else if interspersed then do
      let a ← readArguments specs interspersed args
      return { a with rest := arg :: a.rest }
    else .ok { rest := arg :: args }

end RecordGrammar.Command
