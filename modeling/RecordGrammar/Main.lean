import RecordGrammar.Command.Run

/-!
# The program

Reads the schema file that the arguments name, runs the command, and does what its outcome says.
-/

namespace RecordGrammar.Command

/-- The schema file that the arguments name. -/
def schemaPath? (args : List String) : Option String :=
  match Invocation.ofArguments (fun _ => true) args with
  | .ok (.grammar _ r) => r.files.schema
  | .ok (.sample _ r) => r.files.schema
  | _ => none

def pathOfLocation (here : Location) : String := pathOfNames true here

/-- What can stand for lone halves in the value of a JSON text, having no other meaning there. -/
def halvesFor (text : String) : Halves :=
  match Json.ofText? (fun _ => ' ') text with
  | some v => .apartFrom (v.texts.flatMap (·.toList))
  | none => {}

/-- The working directory and the schema file that the arguments name, if it can be read. -/
def loadWorkspace (args : List String) : IO Workspace := do
  let empty : Workspace := { directory := pathNames (toString (← IO.currentDir)) }
  match schemaPath? args with
  | none => return empty
  | some path =>
    let here := empty.resolve path
    try
      let text ← IO.FS.readFile (pathOfLocation here)
      return { empty with files := [(here, text)], halves := halvesFor text }
    catch _ => return empty

/-- Writes a file and the directories on the way to it. -/
def writeFile (file : Written) : IO Unit := do
  IO.FS.createDirAll (pathOfLocation file.1.dropLast)
  IO.FS.writeFile (pathOfLocation file.1) file.2

end RecordGrammar.Command

open RecordGrammar.Command in
/-- Runs the program. There are no models to refer to outside a library of them. -/
def main (args : List String) : IO UInt32 := do
  let outcome := run (← loadWorkspace args) { module := "", models := [] } args
  if let some file := outcome.written then writeFile file
  for line in outcome.shown do IO.println line
  if let some complaint := outcome.complaint then IO.eprintln complaint.message
  return UInt32.ofNat outcome.exitCode
