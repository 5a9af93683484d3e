import RecordGrammar.Cycle
import RecordGrammar.Shape.Bound

/-!
# Why a schema document gives no shape
-/

namespace RecordGrammar

/-- Why a schema document gives no shape. -/
inductive SchemaError where
  | notADocument (kind : String)
  | malformed
  | unsupportedKeyword (keyword : String)
  | severalTypes (types : Json)
  | unsupportedType (type : Json)
  /-- A value that is no object stands where the walk over the document expects a schema. -/
  | notASchema (kind : String)
  | unresolvable (reference : String)
  | cyclic (names : List String)
  | severalParts
  | untyped (schema : Json)
  | noElementSchema
  | enumNotTexts (values : List Json)
  | enumNotOnString (schema : Json)
  | unreadableType (type : Json)
  | bound (e : BoundError)

/-- A value in running text: a text as it is, anything else as in a message. -/
def Json.plain : Json → String
  | .str s => s
  | v => v.shown

def SchemaError.message : SchemaError → String
  | notADocument kind => "Schema must be a dict, got: " ++ kind
  | malformed => "Invalid JSON Schema"
  | unsupportedKeyword keyword => s!"Keyword '{keyword}' is not supported"
  | severalTypes types => "Type unions are not supported: " ++ types.shown
  | unsupportedType type => "Invalid type: " ++ type.plain
  | notASchema kind => s!"argument of type '{kind}' is not iterable"
  | unresolvable reference => "Unresolvable $ref: " ++ reference
  | cyclic names => Cycle.message names
  | severalParts => "allOf with more than one schema is not supported"
  | untyped schema => "Cannot infer type of schema: " ++ schema.shown
  | noElementSchema => "Arrays must declare a single 'items' schema"
  | enumNotTexts values => "String enum values must be strings, got: " ++ (Json.arr values).shown
  | enumNotOnString schema => "Enumerations are only supported on strings: " ++ schema.shown
  | unreadableType type => "Unsupported schema type: " ++ type.plain
  | bound e => e.message

end RecordGrammar
