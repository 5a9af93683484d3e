import RecordGrammar.Text.Halves
import RecordGrammar.Text.Quoted
import RecordGrammar.Text.Split

/-!
# Workspaces

A workspace is what the command line sees of a file system: a working directory and some files in
UTF-8, each at a location given by the names on the way to it from the top. Every location on the way to a
file or to the working directory is a directory. `Workspace.write` says where a text ends up.
-/

namespace RecordGrammar.Command

/-- The names on the way from the top of the file system. -/
abbrev Location := List String

structure Workspace where
  directory : Location
  files : List (Location × String) := []
  /-- What stands for lone halves in texts that are read. The characters of its block count as halves wherever they
  stand, so it is to be a block apart from the texts of the files, as `Halves.apartFrom` finds one. -/
  halves : Halves := {}

/-- Why a file cannot be read or written. -/
inductive FileError where
  | notFound (path : String)
  | isDirectory (path : String)
  | notADirectory (path : String)
  | alreadyThere (path : String)
deriving DecidableEq

def FileError.message : FileError → String
  | notFound path => "Schema file not found: " ++ path
  | isDirectory path => "[Errno 21] Is a directory: " ++ Text.quoted path
  | notADirectory path => "[Errno 20] Not a directory: " ++ Text.quoted path
  | alreadyThere path => "[Errno 17] File exists: " ++ Text.quoted path

/-- The names in a path, without empty ones and those that stay in place. -/
def pathNames (path : String) : List String := (Text.pieces '/' path).filter fun n => n ≠ "" && n ≠ "."

/-- The path of names, from the top or from the working directory. -/
def pathOfNames (absolute : Bool) (names : List String) : String :=
  let text := "/".intercalate names
  if absolute then "/" ++ text else if names.isEmpty then "." else text

/-- Whether a path starts at the top. -/
def isAbsolute (path : String) : Bool := path.startsWith "/"

/-- The path without what has no meaning in it. -/
def plainPath (path : String) : String := pathOfNames (isAbsolute path) (pathNames path)

namespace Workspace

variable (ws : Workspace)

/-- The text of the file at a location. -/
def file? (here : Location) : Option String := ws.files.lookup here

def isDirectory (here : Location) : Bool :=
  here.isPrefixOf ws.directory || ws.files.any fun f => here.isPrefixOf f.1 && here ≠ f.1

/-- The location at which a path starts. -/
def start (path : String) : Location := if isAbsolute path then [] else ws.directory

/-- The location that a path leads to if all names in it are directories. -/
def resolve (path : String) : Location :=
  (pathNames path).foldl (fun here name => if name = ".." then here.dropLast else here ++ [name]) (ws.start path)

def step (here : Location) (name : String) : Option Location :=
  if !ws.isDirectory here then none
  else if name = "" || name = "." then some here
  else if name = ".." then some here.dropLast
  else some (here ++ [name])

/-- The location that a path leads to, if all but the last name in it lead through directories. -/
def locate? (path : String) : Option Location :=
  if path = "" then none else (Text.pieces '/' path).foldlM ws.step (ws.start path)

/-- Whether a path leads to a file. -/
def isFile (path : String) : Bool := ((ws.locate? path).bind ws.file?).isSome

/-- The text of the file that a path leads to. -/
def read (path : String) : Except FileError String :=
  let path := plainPath path
  match ws.locate? path with
  | none => .error (.notFound path)
  | some here =>
    match ws.file? here with
    | some text => .ok text
    | none => .error (if ws.isDirectory here then .isDirectory path else .notFound path)

/-- The directory that names lead to, where missing ones are made on the way; nothing, if the way leads
through a file. -/
def makeDirectories (here : Location) : List String → Option Location
  | [] => some here
  | name :: names =>
    if (ws.file? here).isSome then none
    else if name = ".." then makeDirectories here.dropLast names
    else makeDirectories (here ++ [name]) names

/-- The location at which a text is written that a path leads to. Missing directories are made. -/
def write (path : String) : Except FileError Location :=
  let names := pathNames path
  let path := pathOfNames (isAbsolute path) names
  let parent := pathOfNames (isAbsolute path) names.dropLast
  match ws.makeDirectories (ws.start path) names.dropLast with
  | none => .error (.notADirectory parent)
  | some here =>
    if (ws.file? here).isSome then .error (.alreadyThere parent)
    else
      match names.getLast? with
      | none | some ".." => .error (.isDirectory path)
      | some name =>
        if ws.isDirectory (here ++ [name]) then .error (.isDirectory path) else .ok (here ++ [name])

end Workspace

end RecordGrammar.Command
