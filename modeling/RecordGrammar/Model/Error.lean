import RecordGrammar.Cycle
import RecordGrammar.Json.Shown

/-!
# Why a model gives no shape
-/

namespace RecordGrammar

/-- Why a model gives no shape. Types are held as messages show them. -/
inductive ModelError where
  | undefined (root name : String)
  | cyclic (names : List String)
  | unsupported (type : String)
  /-- An array type does not say what its elements are. -/
  | noElementType (type : String)
  | literalsNotTexts (values : List Json)
  | enumNotTexts (name : String) (values : List Json)
  | notAModel (value : Json)

def ModelError.message : ModelError → String
  | undefined root name => s!"Cannot resolve annotation on {root}: name '{name}' is not defined"
  | cyclic names => Cycle.message names
  | unsupported type => "Unsupported type: " ++ type
  | noElementType type => "Arrays need exactly one element type, got: " ++ type
  | literalsNotTexts values => "Literal values must be strings, got: " ++ Json.shownRow values
  | enumNotTexts name values => s!"Enum values must be strings, {name} has: " ++ (Json.arr values).shown
  | notAModel value => "Expected a Pydantic model class, got: " ++ value.shown

end RecordGrammar
