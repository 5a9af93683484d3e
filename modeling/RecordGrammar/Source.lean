import RecordGrammar.JsonSchema.Read
import RecordGrammar.Model.Document
import RecordGrammar.Model.Read

/-!
# Sources of shapes

A shape comes from a JSON Schema document or from a model of a family. `Source.provider` says which of
the two reads a source, and `Source.shape` reads it.
-/

namespace RecordGrammar

inductive Source where
  /-- A JSON value, a schema document if it is an object. -/
  | document (value : Json)
  | model (family : Family) (name : String)

inductive SourceError where
  /-- A value of that kind is no source at all. -/
  | noProvider (kind : String)
  | document (e : SchemaError)
  | model (e : ModelError)

def SourceError.message : SourceError → String
  | noProvider kind => "No schema provider for " ++ kind
  | document e => e.message
  | model e => e.message

inductive Provider where
  | jsonSchema
  | model
deriving DecidableEq

def Provider.name : Provider → String
  | jsonSchema => "json-schema"
  | model => "pydantic"

/-- The same computation with another kind of failure. -/
def Reporting.mapError {ε δ α : Type} (f : ε → δ) (x : Reporting ε α) : Reporting δ α := x.adapt f

namespace Source

def provider : Source → Except SourceError Provider
  | document (.obj _) => .ok .jsonSchema
  | document v => .error (.noProvider v.kindName)
  | model _ _ => .ok .model

/-- Reads a source, whichever way it is given. -/
def read : Source → Reporting SourceError Shape
  | document v => (JsonSchema.readDocument v).mapError .document
  | model family name => (family.read name).mapError .model

/-- Reads a source with the provider for it. -/
def shape (source : Source) : Reporting SourceError Shape :=
  match source.provider with
  | .ok _ => source.read
  | .error e => throw e

/-- Reads a source that must be a model. -/
def readModel : Source → Reporting SourceError Shape
  | document v => throw (.model (.notAModel v))
  | model family name => (family.read name).mapError .model

/-- Reads a source that must be a schema document. -/
def readDocument : Source → Reporting SourceError Shape
  | document v => (JsonSchema.readDocument v).mapError .document
  | model _ _ => throw (.document (.notADocument "ModelMetaclass"))

/-- The schema document of a source that must be a model. -/
def schema : Source → Except SourceError Json
  | document v => .error (.model (.notAModel v))
  | model family name =>
    match family.find? name with
    | some m => .ok (family.document m)
    | none => .error (.model (.undefined name name))

end Source

end RecordGrammar
