import RecordGrammar.Shape.Basic
import RecordGrammar.Text.Quoted
import RecordGrammar.Text.Split

/-!
# Edits at a field path

A path names a field of the root object, then a field of the object found there, and so on; arrays
on the way are passed through. An edit rebuilds the objects along the path and leaves all else as
it was. Of fields with one name the first is meant.
-/

namespace RecordGrammar

inductive EditError where
  | emptyPath (path : String)
  | noField (object field : String)
  | notAnObject (field object : String)
  | notAString (path kind : String)
  | rootNotAnObject (kind : String)
deriving DecidableEq

def EditError.message : EditError → String
  | emptyPath path => "Invalid field path: " ++ Text.quoted path
  | noField object field => s!"Object '{object}' has no field '{field}'"
  | notAnObject field object => s!"Field '{field}' of '{object}' is not an object"
  | notAString path kind => s!"Allowed values need a string field, '{path}' is {kind}"
  | rootNotAnObject kind => kind ++ " has no fields"

namespace Shape

/-- The segments of a path: what stands between points, empty pieces left out. -/
def pathSegments (path : String) : List String :=
  (Text.pieces '.' path).filter (· ≠ "")

/-- Puts a field in the place of the first one of the same name, which is where `findField?` finds the field that is
changed: a field of a shape stands nowhere else in it. -/
def setField (new : Field Shape) : List (Field Shape) → List (Field Shape)
  | [] => []
  | f :: fs => if f.name == new.name then new :: fs else f :: setField new fs

/-- Changes the field that the segments lead to, starting at the fields of the named object. -/
def updateFields (change : Field Shape → Except EditError (Field Shape)) (owner : String)
    (fields : List (Field Shape)) (head : String) :
    List String → Except EditError (List (Field Shape))
  | [] =>
    match findField? fields head with
    | none => .error (.noField owner head)
    | some target => do return setField (← change target) fields
  | next :: rest =>
    match findField? fields head with
    | none => .error (.noField owner head)
    | some target =>
      match target.type.withoutArrays with
      | .object name inner => do
        let inner ← updateFields change name inner next rest
        return setField { target with type := target.type.replaceInArrays (.object name inner) } fields
      | _ => .error (.notAnObject head owner)

/-- Changes the field at a path of the root object. -/
def update (path : String) (change : Field Shape → Except EditError (Field Shape)) :
    Shape → Except EditError Shape
  | .object name fields =>
    match pathSegments path with
    | [] => .error (.emptyPath path)
    | head :: rest => do return .object name (← updateFields change name fields head rest)
  | s => .error (.rootNotAnObject s.kindName)

/-- The shape with another description on the field at a path. -/
def withDescription (path description : String) : Shape → Except EditError Shape :=
  update path fun f => .ok { f with description := some description }

/-- The shape with the string at a path restricted to the given values, or the strings in the
arrays at that path. -/
def withAllowedValues (path : String) (values : List String) : Shape → Except EditError Shape :=
  update path fun f =>
    match f.type.withoutArrays with
    | .string text =>
      .ok { f with type := f.type.replaceInArrays (.string { text with allowed := values }) }
    | other => .error (.notAString path other.kindName)

/-- The first field of that name of an object. -/
def field (name : String) : Shape → Except EditError (Field Shape)
  | .object owner fields =>
    match findField? fields name with
    | some f => .ok f
    | none => .error (.noField owner name)
  | s => .error (.rootNotAnObject s.kindName)

end Shape

end RecordGrammar
