import RecordGrammar.Cycle
import RecordGrammar.JsonSchema.Support
import RecordGrammar.Text.Split

/-!
# References between schemas

A schema refers to the whole document or to one of its definitions. Reading follows references, so it
needs that none leads back to itself: `findCycle` searches the graph whose edges are the references
of a schema and of its children.
-/

namespace RecordGrammar.JsonSchema

open Json

def rootReference : String := "#"

/-- Where definitions stand, by the start of the references to them. -/
def definitionTables : List (String × String) := [("#/$defs/", "$defs"), ("#/definitions/", "definitions")]

/-- The schema that a reference leads to. -/
def resolve (document : Fields) (reference : String) : Except SchemaError Json :=
  if reference = rootReference then .ok (.obj document)
  else
    match definitionTables.findSome? fun t => (Text.dropStart? t.1 reference).map (t.2, ·) with
    | some (table, name) =>
      match (document.fieldsAt table).get? name with
      | some v => .ok v
      | none => .error (.unresolvable reference)
    | none => .error (.unresolvable reference)

/-- The references of a schema and of its children, in the order in which reading meets them. -/
def references (v : Json) : List String :=
  match v with
  | .obj fs => (Fields.text? fs "$ref").toList ++ (children fs).attach.flatMap fun ⟨w, _⟩ => references w
  | _ => []
termination_by v.size
decreasing_by
  rename_i h
  have := size_lt_of_mem_children h
  simp only [size]
  omega

mutual

/-- Every text that stands under the name `key` anywhere in a value. -/
def textsUnder (key : String) : Json → List String
  | .arr vs => textsUnderElements key vs
  | .obj fs => textsUnderFields key fs
  | _ => []

/-- Every text that stands under the name `key` anywhere in the elements of an array. -/
def textsUnderElements (key : String) : List Json → List String
  | [] => []
  | v :: vs => textsUnder key v ++ textsUnderElements key vs

/-- Every text that stands under the name `key` anywhere in the fields of an object. -/
def textsUnderFields (key : String) : List (String × Json) → List String
  | [] => []
  | (k, v) :: fs => (if k = key then v.str?.toList else []) ++ textsUnder key v ++ textsUnderFields key fs

end

/-- All references that can occur in a document, and that to the document itself. -/
def allReferences (document : Fields) : List String := rootReference :: textsUnderFields "$ref" document

/-- The first cycle of references met from the root of the document. -/
def findCycle (document : Fields) : Except SchemaError (Option (List String)) :=
  Cycle.find (allReferences document) (fun r => do return references (← resolve document r)) rootReference

/-- The name that a reference ends in. -/
def referenceName (reference : String) : String := Text.afterLast '/' reference

end RecordGrammar.JsonSchema
