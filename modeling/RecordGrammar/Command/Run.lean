import RecordGrammar.Command.Display
import RecordGrammar.Command.Invocation
import RecordGrammar.Command.Load
import RecordGrammar.Grammar.Compile
import RecordGrammar.Sample

/-!
# Running a command

`run` says what a command does in a workspace: its exit code, the lines it shows, and the file it writes.
It opens a file only when it has a result, and then writes it unless the result cannot be encoded. Nor can a text be shown
that cannot be encoded; after that nothing is shown any more.
-/

namespace RecordGrammar.Command

inductive CommandError where
  | settings (e : SettingsError)
  | negativeIndent (indent : Int)
  | load (e : LoadError)
  | source (e : SourceError)
  | grammar (e : GrammarError)
  | sample (e : SampleError)
  | file (e : FileError)
  | encoding (e : EncodingError)

def CommandError.message : CommandError → String
  | settings e => e.message
  | negativeIndent indent => s!"--indent must be non-negative, got {indent}"
  | load e => e.message
  | source e => e.message
  | grammar e => e.message
  | sample e => e.message
  | file e => e.message
  | encoding e => e.message

abbrev Written := Location × String

structure Outcome where
  exitCode : Nat
  shown : List String := []
  complaint : Option UsageError := none
  written : Option Written := none

/-- Why a command ends early. -/
inductive Stop where
  | failed (e : CommandError)
  /-- A text cannot be shown. -/
  | unshowable

/-- What a command at work has done. -/
structure Session where
  shown : List String := []
  written : Option Written := none

/-- A command at work may end early; what it has done by then stays done. -/
abbrev Running (α : Type) := ExceptT Stop (StateM Session) α

def display (lines : List String) : Running Unit := modify fun s => { s with shown := s.shown ++ lines }

/-- Shows a text, laid out in lines. -/
def say (ws : Workspace) (layout : String → List String) (text : String) : Running Unit :=
  if ws.halves.isIn text then throw .unshowable else display (layout text)

/-- Leaves a file with a text. -/
def save (file : Written) : Running Unit := modify fun s => { s with written := some file }

/-- The result of a computation, or its failure as one of the command. -/
def attempt {ε α : Type} (f : ε → CommandError) : Except ε α → Running α
  | .ok a => pure a
  | .error e => throw (.failed (f e))

/-- Shows notices: warnings always, others only on demand. -/
def sayNotices (ws : Workspace) (verbose : Bool) (ns : List Notice) : Running Unit :=
  (ns.filter fun n => verbose || n.level = .warning).forM fun n => say ws (fun _ => Display.notice n) n.message

def loadSource (ws : Workspace) (family : Family) (files : Files) : Running Source := do
  match files.schema, files.model with
  | some path, none =>
    let v ← attempt .load (loadSchemaFile ws path)
    say ws Display.success ("Loaded schema from: " ++ plainPath path)
    return .document v
  | none, some reference =>
    let source ← attempt .load (loadModel family reference)
    say ws Display.success ("Loaded model: " ++ reference)
    return source
  | _, _ => throw (.failed (.load .sourceCount))

/-- The text of a source as a schema. -/
def schemaText : Source → Except SourceError String
  | .document (.str s) => .ok s
  | .document v => .ok (v.pretty "")
  | source => do return (← source.schema).pretty ""

/-- Reads a source with the provider for it. -/
def readSource (ws : Workspace) (verbose : Bool) (source : Source) : Running Shape := do
  let provider ← attempt .source source.provider
  display (Display.info ("Provider: " ++ provider.name))
  let (result, notices) := source.shape.outcome
  sayNotices ws verbose notices
  attempt .source result

/-- Writes a text to the file that the options name, or shows it with `present`. The file is opened, and so emptied, before the
text is encoded. -/
def deliver (ws : Workspace) (output : Option String) (text : String) (present : Running Unit) : Running Unit := do
  match output with
  | some path =>
    let place ← attempt .file (ws.write path)
    match ws.halves.error? text with
    | some e =>
      save (place, "")
      throw (.failed (.encoding e))
    | none =>
      save (place, text ++ "\n")
      say ws Display.success ("Saved to: " ++ plainPath path)
  | none => present

/-- Makes the grammar that is asked for. -/
def makeGrammar (ws : Workspace) (family : Family) (verbose : Bool) (r : GrammarRequest) :
    Running (GrammarSettings × String) := do
  let settings ← attempt .settings r.options.check
  display (Display.header "struct-grammar - GBNF Grammar")
  let source ← loadSource ws family r.files
  if r.showSchema then say ws (Display.panel "Schema") (← attempt .source (schemaText source))
  let shape ← readSource ws verbose source
  let (result, notices) := shape.grammar settings
  sayNotices ws verbose notices
  let table ← attempt .grammar result
  say ws Display.success ("Compiled grammar for: " ++ shape.displayName)
  return (settings, table.render)

def runGrammar (ws : Workspace) (family : Family) (verbose : Bool) (r : GrammarRequest) : Running Unit := do
  let (settings, grammar) ← makeGrammar ws family verbose r
  display Display.separator
  deliver ws r.files.output grammar (say ws (Display.panel "Grammar") grammar)
  display (Display.statistics grammar settings.entryRule)

/-- The settings that the options of the `sample` command ask for. -/
def SampleRequest.settings (r : SampleRequest) : Except CommandError SampleSettings :=
  if r.indent < 0 then .error (.negativeIndent r.indent)
  else
    let options : SampleOptions :=
      { prettyPrint := !r.compact, indent := String.ofList (List.replicate r.indent.toNat ' ') }
    match options.check with
    | .ok settings => .ok settings
    | .error e => .error (.settings e)

/-- Makes the sample document that is asked for. -/
def makeSample (ws : Workspace) (family : Family) (verbose : Bool) (r : SampleRequest) :
    Running (SampleSettings × String) := do
  let settings ← attempt id r.settings
  display (Display.header "struct-grammar - Sample Document")
  let source ← loadSource ws family r.files
  let shape ← readSource ws verbose source
  let sample ← attempt .sample (shape.sample settings)
  return (settings, sample)

def runSample (ws : Workspace) (family : Family) (verbose : Bool) (r : SampleRequest) : Running Unit := do
  let (settings, sample) ← makeSample ws family verbose r
  let sentence := Sample.instructions settings.delimiters
  display Display.separator
  if r.instructions then
    deliver ws r.files.output (sentence ++ "\n\n" ++ sample) do
      display (Display.plain sentence ++ [""])
      say ws (Display.panel "Sample") sample
  else deliver ws r.files.output sample (say ws (Display.panel "Sample") sample)

/-- The lines that end a command which ends early. -/
def Stop.lines (ws : Workspace) : Stop → List String
  | failed e => if ws.halves.isIn e.message then [] else Display.failure e.message
  | unshowable => []

/-- The outcome of a command at work. -/
def Running.outcome (ws : Workspace) (x : Running Unit) : Outcome :=
  match x.run.run {} with
  | (.ok _, s) => { exitCode := 0, shown := s.shown, written := s.written }
  | (.error stop, s) => { exitCode := 1, shown := s.shown ++ stop.lines ws, written := s.written }

def versionLine : String := "struct-grammar version 0.1.0"

/-- The lines that tell how the program is used. -/
def helpLines : List String :=
  ["Usage: struct-grammar [OPTIONS] COMMAND [ARGS]...", "",
   "GBNF grammars and sample documents for structured LLM output", "",
   "Options: --version, -V   show the version",
   "         --verbose, -v   show debug logging", "",
   "Commands: grammar   compile a schema to a GBNF grammar",
   "          sample    render the annotated sample document for a schema"]

/-- What the program does with its arguments in a workspace with a family of models. -/
def run (ws : Workspace) (family : Family) (args : List String) : Outcome :=
  match Invocation.ofArguments ws.isFile args with
  | .error e => { exitCode := 2, complaint := some e }
  | .ok .version => { exitCode := 0, shown := [versionLine] }
  | .ok .help => { exitCode := 0, shown := helpLines }
  | .ok (.grammar verbose r) => (runGrammar ws family verbose r).outcome ws
  | .ok (.sample verbose r) => (runSample ws family verbose r).outcome ws

end RecordGrammar.Command
