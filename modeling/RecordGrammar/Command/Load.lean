import RecordGrammar.Command.Workspace
import RecordGrammar.Json.Reader
import RecordGrammar.Source

/-!
# Loading sources

A source is loaded from a schema file, or it is a model that a reference `module:Class` names.
-/

namespace RecordGrammar.Command

inductive LoadError where
  | file (e : FileError)
  | notJson
  /-- A reference is not of the form `module:Class`. -/
  | malformedReference (reference : String)
  /-- A module name starts with a point. -/
  | relativeModule (module : String)
  /-- No module of the name `missing` exists, which the import needs. -/
  | noModule (module missing : String)
  /-- The module `parent` holds no modules, but `missing` is looked for in it. -/
  | noPackage (module missing parent : String)
  | noModel (reference : String)
  | sourceCount

def LoadError.message : LoadError → String
  | file e => e.message
  | notJson => "Invalid JSON in schema file"
  | malformedReference reference => "Model must be given as module:Class, got: " ++ reference
  | relativeModule module =>
    "the 'package' argument is required to perform a relative import for " ++ Text.quoted module
  | noModule module missing => s!"Cannot import module '{module}': No module named " ++ Text.quoted missing
  | noPackage module missing parent =>
    s!"Cannot import module '{module}': No module named " ++ Text.quoted missing ++ "; " ++ Text.quoted parent
      ++ " is not a package"
  | noModel reference => s!"'{reference}' is not a Pydantic model class"
  | sourceCount => "Provide exactly one of --schema or --model"

/-- The JSON value in a schema file. -/
def loadSchemaFile (ws : Workspace) (path : String) : Except LoadError Json :=
  match ws.read path with
  | .error e => .error (.file e)
  | .ok text =>
    match Json.ofText? ws.halves.char text with
    | some v => .ok v
    | none => .error .notJson

/-- Imports a module; the only one that exists is that of the family. An import fails only for want of a module: what a
module does when it is imported, and may fail to do, is not part of the model. -/
def importModule (family : Family) (module : String) : Except LoadError Unit :=
  if module = family.module then .ok ()
  else
    match Text.pieces '.' module with
    | "" :: _ :: _ => .error (.relativeModule module)
    | first :: second :: _ =>
      if first = family.module then .error (.noPackage module (first ++ "." ++ second) first)
      else .error (.noModule module first)
    | _ => .error (.noModule module module)

def loadModel (family : Family) (reference : String) : Except LoadError Source := do
  let (module, name) := Text.cutAtFirst ':' reference
  if module = "" || name = "" then throw (.malformedReference reference)
  importModule family module
  if (family.find? name).isNone then throw (.noModel reference)
  return .model family name

end RecordGrammar.Command
