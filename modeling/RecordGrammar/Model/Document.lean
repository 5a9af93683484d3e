import RecordGrammar.Model.Basic
import RecordGrammar.Text.Blank
import RecordGrammar.Text.LetterCase

/-!
# The schema document of a model

A model can be written as a JSON Schema document that describes the same records. Models and
enumerations it depends on stand in the document's definitions, and references lead to them. The
keywords of every schema are in alphabetical order; properties keep the order of the fields.
-/

namespace RecordGrammar

open Json (Fields)

namespace Json

mutual

/-- The value with the fields of its objects in alphabetical order. The fields of an object under the
name `properties` or `default` keep their order, and so does an object that `keep` asks for. -/
def arranged (keep : Bool) : Json → Json
  | arr vs => arr (arrangedElements keep vs)
  | obj fs =>
    let fs := arrangedFields fs
    obj (if keep then fs else fs.mergeSort fun f g => decide (f.1 ≤ g.1))
  | v => v

def arrangedElements (keep : Bool) : List Json → List Json
  | [] => []
  | v :: vs => arranged keep v :: arrangedElements keep vs

/-- The fields of an object in the same order, their values arranged. -/
def arrangedFields : List (String × Json) → List (String × Json)
  | [] => []
  | (k, v) :: fs => (k, arranged (k == "properties" || k == "default") v) :: arrangedFields fs

end

end Json

def typed (type : String) (more : Fields := []) : Fields := ("type", .str type) :: more

/-- A schema that refers to the definition of that name. -/
def referenceTo (name : String) : Fields := [("$ref", .str ("#/$defs/" ++ name))]

namespace Constraints

def bounds (c : Constraints) (least greatest : String) : Fields :=
  (c.minLength.map fun n => (least, Json.int n)).toList ++ (c.maxLength.map fun n => (greatest, Json.int n)).toList

/-- The bounds on the length of a text. -/
def lengthBounds (c : Constraints) : Fields := c.bounds "minLength" "maxLength"

/-- The bounds on the length of an array. -/
def itemBounds (c : Constraints) : Fields := c.bounds "minItems" "maxItems"

/-- A schema with what describes it and with the further keywords. -/
def complete (c : Constraints) (described base : Fields) : Fields := (base.merge described).merge c.extra

end Constraints

/-- The schema of a type without parts. -/
def BasicType.schema (c : Constraints) : BasicType → Fields
  | text => typed "string" c.lengthBounds
  | integer => typed "integer"
  | float => typed "number"
  | decimal =>
    [("anyOf", .arr [.obj (typed "number"),
      .obj (typed "string" [("pattern", .str "^(?!^[-+.]*$)[+-]?0*\\d*\\.?\\d*$")])])]
  | boolean => typed "boolean"
  | dateTime => typed "string" [("format", .str "date-time")]
  | date => typed "string" [("format", .str "date")]
  | time => typed "string" [("format", .str "time")]
  | guid => typed "string" [("format", .str "uuid")]
  | bytes => typed "string" [("format", .str "binary")]
  | anything => []
  | nothing => typed "null"
  | table => typed "object" [("additionalProperties", .bool true)]
  | list => typed "array" [("items", .obj [])]

/-- A schema as a value; the one without keywords is `true`. -/
def schemaOrTrue (fs : Fields) : Json := if fs.isEmpty then .bool true else .obj fs

/-- The alternatives that a schema consists of; itself, if it is no choice. -/
def alternatives : Json → List Json
  | .obj [("anyOf", .arr vs)] => vs
  | v => [v]

/-- The type that all values of a list have, as a keyword. -/
def commonType (vs : List Json) : Fields :=
  if vs.all (·.str?.isSome) then typed "string"
  else if vs.all (· matches .int _) then typed "integer"
  else if vs.all (· matches .float _) then typed "number"
  else if vs.all (· matches .bool _) then typed "boolean"
  else []

namespace FieldType

mutual

/-- The schema of a type under constraints. The fields `described` come before further keywords. -/
def schema (c : Constraints) (described : Fields) : FieldType → Fields
  | basic t => c.complete described (t.schema c)
  | bareArray => c.complete described (typed "array" (("items", .obj []) :: c.itemBounds))
  | array _ t | tuple t => c.complete described (typed "array" (("items", .obj (t.schema {} [])) :: c.itemBounds))
  | set t =>
    c.complete described
      (typed "array" (("uniqueItems", .bool true) :: ("items", .obj (t.schema {} [])) :: c.itemBounds))
  | map _ v => c.complete described (typed "object" [("additionalProperties", schemaOrTrue (v.schema {} []))])
  | union ts =>
    let absent := if ts.any (· matches basic .nothing) then [Json.obj (typed "null")] else []
    match ((schemas ts).flatMap alternatives ++ absent).eraseDups with
    | [.obj only] => c.complete described only
    | vs => c.complete described [("anyOf", .arr vs)]
  | literal [v] => c.complete described (("const", v) :: commonType [v])
  | literal vs => c.complete described (("enum", .arr vs) :: commonType vs)
  | enumeration name _ | model name => c.complete described (referenceTo name)
  | annotated t inner => t.schema (c.around inner) described

/-- The schemas of the types among the given ones that have values. -/
def schemas : List FieldType → List Json
  | [] => []
  | basic .nothing :: ts => schemas ts
  | t :: ts => .obj (t.schema {} []) :: schemas ts

end

mutual

/-- The enumerations a type mentions, by name. -/
def enumerations : FieldType → List (String × List Json)
  | array _ t | set t | tuple t | annotated t _ => t.enumerations
  | map k v => k.enumerations ++ v.enumerations
  | union ts => enumerationsOf ts
  | enumeration name vs => [(name, vs)]
  | basic _ | bareArray | literal _ | model _ => []

/-- The enumerations that types mention, by name. -/
def enumerationsOf : List FieldType → List (String × List Json)
  | [] => []
  | t :: ts => t.enumerations ++ enumerationsOf ts

end

/-- Whether the schema of a type is a reference, or a choice between one and nothing. -/
def isReference : FieldType → Bool
  | enumeration _ _ | model _ => true
  | annotated t _ | union [basic .nothing, t] | union [t, basic .nothing] => t.isReference
  | _ => false

end FieldType

/-- The title that is made from a name. -/
def titleOfName (name : String) : String :=
  Text.trim (String.ofList ((Text.titled name).toList.map fun c => if c = '_' then ' ' else c))

def ModelField.schema (f : ModelField) : Fields :=
  let described := (f.description.map fun d => ("description", Json.str d)).toList
  let fs := f.type.schema f.constraints described
  if fs.has "title" || f.type.isReference then fs else fs.merge [("title", .str (titleOfName f.key))]

def Model.schema (m : Model) : Fields :=
  typed "object" <|
    [("properties", .obj (Fields.merge [] (m.fields.map fun f => (f.key, .obj f.schema))))]
    ++ (if m.fields.isEmpty then [] else [("required", Json.arr (m.fields.map (.str ·.key)))])
    ++ [("title", .str (m.title.getD m.name))]

def enumerationSchema (name : String) (values : List Json) : Fields :=
  [("enum", .arr values), ("title", .str name)] ++ commonType values

namespace Family

/-- The definitions that the models hold on which a model depends: those models and their
enumerations. The model itself is among them only if one of them refers to it. A definition stands under
the name of its class as it is, which is to be made of letters and digits of ASCII, points, dashes and
low lines. -/
def definitions (family : Family) (root : String) : Fields :=
  let models := family.reachable root
  let defined := models.filter fun m => models.any (·.references.contains m.name)
  let enumerations := models.flatMap fun m => m.fields.flatMap (·.type.enumerations)
  Fields.merge [] (defined.map (fun m => (m.name, .obj m.schema))
    ++ enumerations.map fun (name, vs) => (name, .obj (enumerationSchema name vs)))

/-- The schema document of a model. A model that depends on itself stands among its definitions. -/
def document (family : Family) (m : Model) : Json :=
  let definitions := family.definitions m.name
  let own := if definitions.has m.name then referenceTo m.name else m.schema
  (Json.obj (own ++ if definitions.isEmpty then [] else [("$defs", .obj definitions)])).arranged false

end Family

end RecordGrammar
