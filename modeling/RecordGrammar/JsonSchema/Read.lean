import RecordGrammar.JsonSchema.Reference
import RecordGrammar.Notice
import RecordGrammar.Shape.Basic
import RecordGrammar.Text.Choice

/-!
# From schema documents to shapes

A schema gives the shape of its type. A reference stands for the definition it leads to, and a schema
composed of one part for the merger of both. A definition that lists values is an enumeration with a
name; any other schema that does so is a string with allowed values.

Reading ends because each reference is followed at most once on the way down, and each step between
two references leads to a smaller schema.
-/

namespace RecordGrammar.JsonSchema

open Json

/-- Reading a schema may fail and reports what it does. -/
abbrev Reading (α : Type) := Reporting SchemaError α

/-- The bound that a keyword gives, under the name messages use. -/
def boundAt (fs : Fields) (keyword label : String) : Reading (Option Nat) :=
  match boundOfJson label ((fs.get? keyword).getD .null) with
  | .ok b => return b
  | .error e => throw (.bound e)

/-- The values that a schema lists, or the single one it fixes. -/
def listedValues? (fs : Fields) : Option (List Json) :=
  match fs.get? "enum" with
  | some (.arr vs) => some vs
  | _ => (fs.get? "const").map ([·])

def readString (fs : Fields) (hint : Option String) (isDefinition : Bool) : Reading Shape :=
  match listedValues? fs with
  | some vs =>
    if vs.all (·.str?.isSome) then
      let values := vs.filterMap str?
      if isDefinition then return .enum (Text.firstNonEmpty [fs.text? "title", hint] "enum") values
      else return .string { allowed := values }
    else throw (.enumNotTexts vs)
  | none =>
    match fs.text? "format" with
    | some "date-time" => return .scalar .date Scalar.date.defaultName
    | some "uuid" => return .scalar .guid Scalar.guid.defaultName
    | format => do
      let minLength ← boundAt fs "minLength" "min_length"
      let maxLength ← boundAt fs "maxLength" "max_length"
      return .string { minLength, maxLength, format }

/-- Reads a schema of a type whose values cannot be listed. -/
def readNumeric (fs : Fields) (kind : Scalar) : Reading Shape :=
  if fs.has "enum" || fs.has "const" then throw (.enumNotOnString (.obj fs))
  else return .scalar kind kind.defaultName

/-- The type of a schema: the one it names, else the one that its keywords show. -/
def typeOf (fs : Fields) : Except SchemaError Json :=
  match fs.get? "type" with
  | some .null | none =>
    if fs.has "properties" then .ok (.str "object")
    else if fs.has "items" then .ok (.str "array")
    else if fs.has "enum" || fs.has "const" then .ok (.str "string")
    else .error (.untyped (.obj fs))
  | some t => .ok t

/-- A schema without its parts, and the only one of them merged in. -/
def mergePart (fs part : Fields) : Fields := (fs.erase "allOf").merge part

theorem sizeFields_mergePart_lt {fs part : Fields} (h : fs.get? "allOf" = some (.arr [.obj part])) :
    sizeFields (mergePart fs part) < sizeFields fs := by
  have h₁ := Fields.sizeFields_erase_add_le h
  have h₂ := Fields.sizeFields_merge_le (fs.erase "allOf") part
  simp only [size, sizeElements] at h₁
  unfold mergePart
  omega

mutual

/-- Reads a schema. `fresh` holds the references not followed on the way to it, `hint` a name for an
object or an enumeration without a title. -/
def readSchema (document : Fields) (fresh : List String) (fs : Fields) (hint : Option String)
    (isDefinition : Bool) : Reading Shape :=
  match fs.text? "$ref" with
  | some reference => do
    report (.followingReference reference)
    if reference ∈ fresh then
      match resolve document reference with
      | .ok (.obj target) => readSchema document (fresh.erase reference) target (some (referenceName reference)) true
      | .ok v => throw (.notASchema v.kindName)
      | .error e => throw e
    else throw (.cyclic [referenceName reference])
  | none =>
    match _ : fs.get? "allOf" with
    | some (.arr [.obj part]) => readSchema document fresh (mergePart fs part) hint isDefinition
    | some _ => throw .severalParts
    | none => do
      match typeOf fs with
      | .error e => throw e
      | .ok (.str "object") =>
        let fields ← match _ : fs.get? "properties" with
          | some (.obj properties) => readProperties document fresh properties
          | _ => pure []
        let name := Text.firstNonEmpty [fs.text? "title", hint] "object"
        report (.objectRead name fields.length)
        return .object name fields
      | .ok (.str "array") =>
        match _ : fs.get? "items" with
        | some (.obj items) =>
          let element ← readSchema document fresh items none false
          let minItems ← boundAt fs "minItems" "min_items"
          let maxItems ← boundAt fs "maxItems" "max_items"
          return .array element minItems maxItems "array"
        | _ => throw .noElementSchema
      | .ok (.str "string") => readString fs hint isDefinition
      | .ok (.str "integer") => readNumeric fs .integer
      | .ok (.str "number") => readNumeric fs .decimal
      | .ok (.str "boolean") => return .scalar .boolean Scalar.boolean.defaultName
      | .ok t => throw (.unreadableType t)
termination_by (fresh.length, sizeFields fs)
decreasing_by
  · rename_i hm
    have := List.length_erase_of_mem hm
    have := List.length_pos_of_mem hm
    exact Prod.Lex.left _ _ (by omega)
  · rename_i h
    exact Prod.Lex.right _ (sizeFields_mergePart_lt h)
  · rename_i h
    exact Prod.Lex.right _ (by have := Fields.size_lt_of_get? h; simp only [size] at this; omega)
  · rename_i h
    exact Prod.Lex.right _ (by have := Fields.size_lt_of_get? h; simp only [size] at this; omega)

def readProperties (document : Fields) (fresh : List String) (properties : Fields) :
    Reading (List (Field Shape)) :=
  match properties with
  | [] => return []
  | (name, .obj fs) :: rest => do
    let type ← readSchema document fresh fs (some name) false
    return ⟨name, type, Fields.text? fs "description"⟩ :: (← readProperties document fresh rest)
  | (_, v) :: _ => throw (.notASchema v.kindName)
termination_by (fresh.length, sizeFields properties)
decreasing_by
  · exact Prod.Lex.right _ (by simp only [sizeFields, size]; omega)
  · exact Prod.Lex.right _ (by simp only [sizeFields, size]; omega)

end

/-- Reads a document that has been validated. -/
def readValid (document : Fields) : Reading Shape := do
  match findCycle document with
  | .error e => throw e
  | .ok (some cycle) => throw (.cyclic (cycle.map referenceName))
  | .ok none => readSchema document (allReferences document) document none false

def readDocument (v : Json) : Reading Shape :=
  match v with
  | .obj fs =>
    match validate v with
    | .error e => throw e
    | .ok _ => readValid fs
  | v => throw (.notADocument v.kindName)

end RecordGrammar.JsonSchema
