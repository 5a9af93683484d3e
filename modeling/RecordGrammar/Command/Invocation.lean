import RecordGrammar.Command.Arguments
import RecordGrammar.Settings
import RecordGrammar.Text.Integer

/-!
# Invocations

What a user asks for on the command line: the version, help, a grammar or a sample document.
`Invocation.ofArguments` reads it from the arguments.
-/

namespace RecordGrammar.Command

/-- Where the schema comes from and where the result goes. -/
structure Files where
  schema : Option String := none
  model : Option String := none
  output : Option String := none
deriving DecidableEq

/-- What the `grammar` command is asked for. -/
structure GrammarRequest where
  files : Files
  options : GrammarOptions
  showSchema : Bool
deriving DecidableEq

/-- What the `sample` command is asked for. -/
structure SampleRequest where
  files : Files
  compact : Bool
  /-- The number of blanks of one level. -/
  indent : Int
  instructions : Bool
deriving DecidableEq

inductive Invocation where
  | version
  | help
  | grammar (verbose : Bool) (request : GrammarRequest)
  | sample (verbose : Bool) (request : SampleRequest)
deriving DecidableEq

inductive GlobalOption where
  | version
  | verbose
  | help
deriving DecidableEq

def globalOptions : List (OptionSpec GlobalOption) :=
  [{ key := .version, name := "version", letter := some 'V' },
   { key := .verbose, name := "verbose", letter := some 'v' },
   { key := .help, name := "help" }]

inductive CommandOption where
  | schema
  | model
  | output
  | thinking
  | maxThinking
  | minLength
  | maxLength
  | minItems
  | maxItems
  | strictFormats
  | noClamp
  | showSchema
  | compact
  | indent
  | instructions
  | help
deriving DecidableEq

def sharedOptions : List (OptionSpec CommandOption) :=
  [{ key := .schema, name := "schema", letter := some 's', takesValue := true },
   { key := .model, name := "model", letter := some 'm', takesValue := true },
   { key := .output, name := "output", letter := some 'o', takesValue := true },
   { key := .help, name := "help" }]

def grammarOptions : List (OptionSpec CommandOption) :=
  sharedOptions ++
  [{ key := .thinking, name := "thinking" },
   { key := .maxThinking, name := "max-thinking", takesValue := true },
   { key := .minLength, name := "min-length", takesValue := true },
   { key := .maxLength, name := "max-length", takesValue := true },
   { key := .minItems, name := "min-items", takesValue := true },
   { key := .maxItems, name := "max-items", takesValue := true },
   { key := .strictFormats, name := "strict-formats" },
   { key := .noClamp, name := "no-clamp" },
   { key := .showSchema, name := "show-schema" }]

def sampleOptions : List (OptionSpec CommandOption) :=
  sharedOptions ++
  [{ key := .compact, name := "compact" },
   { key := .indent, name := "indent", takesValue := true },
   { key := .instructions, name := "instructions" }]

/-- The value of an option that takes an integer. -/
def integerOption (a : Arguments CommandOption) (key : CommandOption) (name : String) (default : Int) :
    Except UsageError Int :=
  match a.value? key with
  | none => .ok default
  | some value =>
    match Text.integer? value with
    | some n => .ok n
    | none => .error (.notAnInteger name value)

/-- The files that the options name. `isFile` tells which paths lead to a file. -/
def filesOf (isFile : String → Bool) (a : Arguments CommandOption) : Except UsageError Files :=
  match (a.value? .schema).filter (!isFile ·) with
  | some path => .error (.noSuchFile path)
  | none => .ok { schema := a.value? .schema, model := a.value? .model, output := a.value? .output }

/-- The request that the options of the `grammar` command make. -/
def grammarRequest (isFile : String → Bool) (a : Arguments CommandOption) : Except UsageError GrammarRequest := do
  let d : GrammarOptions := {}
  let files ← filesOf isFile a
  let maxThinking ← integerOption a .maxThinking "--max-thinking" d.maxThinkingLength
  let minLength ← integerOption a .minLength "--min-length" d.defaultMinLength
  let maxLength ← integerOption a .maxLength "--max-length" d.defaultMaxLength
  let minItems ← integerOption a .minItems "--min-items" d.defaultMinItems
  let maxItems ← integerOption a .maxItems "--max-items" d.defaultMaxItems
  return {
    files
    options := { d with
      includeThinking := a.has .thinking, maxThinkingLength := maxThinking
      defaultMinLength := minLength, defaultMaxLength := maxLength
      defaultMinItems := minItems, defaultMaxItems := maxItems
      strictFormats := a.has .strictFormats, clampArrayBounds := !a.has .noClamp }
    showSchema := a.has .showSchema }

/-- The request that the options of the `sample` command make. -/
def sampleRequest (isFile : String → Bool) (a : Arguments CommandOption) : Except UsageError SampleRequest := do
  let files ← filesOf isFile a
  let indent ← integerOption a .indent "--indent" 4
  return { files, compact := a.has .compact, indent, instructions := a.has .instructions }

/-- Reads the arguments of a command, which takes options only. Help comes before all checks of their
values. -/
def ofCommandArguments {ρ : Type} (specs : List (OptionSpec CommandOption))
    (request : Arguments CommandOption → Except UsageError ρ) (invocation : ρ → Invocation) (args : List String) :
    Except UsageError Invocation := do
  let a ← readArguments specs true args
  if a.has .help then return .help
  let r ← request a
  match a.rest with
  | [] => return invocation r
  | arg :: _ => throw (.unexpectedArgument arg)

/-- Reads all arguments. The version is asked for before the options of a command are looked at. -/
def Invocation.ofArguments (isFile : String → Bool) (args : List String) : Except UsageError Invocation := do
  let global ← readArguments globalOptions false args
  if global.has .help then return .help
  let verbose := global.has .verbose
  let version := global.has .version
  match global.rest with
  | [] => return if version then .version else .help
  | "grammar" :: args =>
    if version then return .version
    ofCommandArguments grammarOptions (grammarRequest isFile) (.grammar verbose) args
  | "sample" :: args =>
    if version then return .version
    ofCommandArguments sampleOptions (sampleRequest isFile) (.sample verbose) args
  | name :: _ => throw (.noSuchCommand name)

end RecordGrammar.Command
