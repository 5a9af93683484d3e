/-!
# Dialects of JSON Schema

A dialect says what each keyword demands of its value. Keywords that a dialect does not know are
free. `Dialect.named?` finds the dialect that a document names, among those from draft 4 on.
-/

namespace RecordGrammar.JsonSchema

/-- What a keyword demands of its value. -/
inductive Demand where
  | schema
  /-- At least one schema, in an array. -/
  | schemas
  | schemaOrSchemas
  /-- A truth value, even where such a value is no schema. -/
  | schemaOrBoolean
  | schemaTable
  | patternTable
  | dependencyTable
  | names
  | someNames
  | nameTable
  /-- The name of a type, or distinct ones, at least one. -/
  | types
  | count
  | number
  | positive
  | boolean
  | booleanTable
  | text
  | pattern
  | address
  /-- A plain name; the flag says whether it may start with a low line and must not hold a colon. -/
  | anchor (lowLine : Bool)
  | values
deriving DecidableEq

structure Dialect where
  /-- The demands of the keywords it knows. -/
  demands : List (String × Demand)
  /-- Whether a truth value is a schema. -/
  booleanSchemas : Bool := true
  /-- Whether a double that is equal to an integer counts as one. -/
  integralDoubles : Bool := true
  /-- Pairs of a keyword and another one that it must not stand without. -/
  companions : List (String × String) := []

namespace Dialect

def shared : List (String × Demand) :=
  [("$schema", .text), ("title", .text), ("description", .text), ("format", .text), ("pattern", .pattern),
   ("type", .types), ("enum", .values), ("maximum", .number), ("minimum", .number), ("uniqueItems", .boolean),
   ("maxLength", .count), ("minLength", .count), ("maxItems", .count), ("minItems", .count),
   ("maxProperties", .count), ("minProperties", .count), ("properties", .schemaTable),
   ("definitions", .schemaTable), ("dependencies", .dependencyTable), ("allOf", .schemas), ("anyOf", .schemas),
   ("oneOf", .schemas), ("not", .schema)]

/-- What dialects from draft 6 on demand alike. -/
def sharedFromDraft6 : List (String × Demand) :=
  shared ++
  [("$ref", .text), ("multipleOf", .positive), ("exclusiveMaximum", .number), ("exclusiveMinimum", .number),
   ("required", .names), ("additionalProperties", .schema), ("propertyNames", .schema), ("contains", .schema),
   ("examples", .values)]

/-- What dialects from draft 7 on demand alike. -/
def sharedFromDraft7 : List (String × Demand) :=
  sharedFromDraft6 ++
  [("$comment", .text), ("readOnly", .boolean), ("writeOnly", .boolean), ("patternProperties", .patternTable),
   ("if", .schema), ("then", .schema), ("else", .schema), ("contentMediaType", .text), ("contentEncoding", .text)]

/-- What dialects from 2019-09 on demand alike. -/
def sharedFrom2019 : List (String × Demand) :=
  sharedFromDraft7 ++
  [("$id", .address), ("$defs", .schemaTable), ("$vocabulary", .booleanTable), ("dependentSchemas", .schemaTable),
   ("dependentRequired", .nameTable), ("unevaluatedItems", .schema), ("unevaluatedProperties", .schema),
   ("maxContains", .count), ("minContains", .count), ("deprecated", .boolean), ("contentSchema", .schema)]

def draft4 : Dialect where
  demands := shared ++
    [("id", .text), ("multipleOf", .positive), ("exclusiveMaximum", .boolean), ("exclusiveMinimum", .boolean),
     ("required", .someNames), ("additionalProperties", .schemaOrBoolean), ("additionalItems", .schemaOrBoolean),
     ("items", .schemaOrSchemas), ("patternProperties", .schemaTable)]
  booleanSchemas := false
  integralDoubles := false
  companions := [("exclusiveMaximum", "maximum"), ("exclusiveMinimum", "minimum")]

def draft6 : Dialect where
  demands := sharedFromDraft6 ++
    [("$id", .text), ("additionalItems", .schema), ("items", .schemaOrSchemas), ("patternProperties", .schemaTable)]

def draft7 : Dialect where
  demands := sharedFromDraft7 ++ [("$id", .text), ("additionalItems", .schema), ("items", .schemaOrSchemas)]

def of2019 : Dialect where
  demands := sharedFrom2019 ++
    [("$anchor", .anchor false), ("$recursiveRef", .text), ("$recursiveAnchor", .boolean),
     ("additionalItems", .schema), ("items", .schemaOrSchemas)]

def of2020 : Dialect where
  demands := sharedFrom2019 ++
    [("$anchor", .anchor true), ("$dynamicRef", .text), ("$dynamicAnchor", .anchor true),
     ("$recursiveRef", .text), ("$recursiveAnchor", .anchor true), ("items", .schema), ("prefixItems", .schemas)]

def addresses : List (String × Dialect) :=
  [("http://json-schema.org/draft-04/schema", draft4),
   ("http://json-schema.org/draft-06/schema", draft6),
   ("http://json-schema.org/draft-07/schema", draft7),
   ("https://json-schema.org/draft/2019-09/schema", of2019),
   ("https://json-schema.org/draft/2020-12/schema", of2020)]

/-- The dialect of an address, which may end in an empty fragment. -/
def named? (address : String) : Option Dialect :=
  addresses.findSome? fun (a, d) => if address = a || address = a ++ "#" then some d else none

end Dialect

end RecordGrammar.JsonSchema
