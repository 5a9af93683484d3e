import RecordGrammar.Grammar.Format
import RecordGrammar.Shape.Basic

/-!
# Sample documents

A sample document shows the layout of a record: objects with their keys, arrays with a first, a
second and an N-th element, and a placeholder between delimiters for every value. With pretty
printing, each field stands on a line of its own, with its description and its allowed values behind
it as a comment.
-/

namespace RecordGrammar

/-- Why a shape has no sample document. -/
inductive SampleError where
  | unknownKind (kind : String)
deriving DecidableEq

def SampleError.message : SampleError → String
  | unknownKind kind => "Unsupported schema node: " ++ kind

namespace Sample

def placeholder (d : Delimiters) (text : String) : String :=
  String.singleton d.opening ++ text ++ String.singleton d.closing

/-- A text between quotes, as it is. -/
def inQuotes (text : String) : String := "\"" ++ text ++ "\""

/-- Whether the values of the shape are JSON strings. -/
def isQuoted : Shape → Bool
  | .string _ | .enum _ _ | .scalar .date _ | .scalar .guid _ => true
  | _ => false

/-- Puts a mark before the last `n` characters. -/
def markBefore (n : Nat) (mark value : List Char) : List Char :=
  value.take (value.length - n) ++ mark ++ value.drop (value.length - n)

/-- Marks a lone placeholder, with or without quotes, as the first of a row. Any other text stays as
it is. -/
def markFirst (d : Delimiters) (value : String) : String :=
  let cs := value.toList
  let mark := ['_', '1']
  if ['"', d.opening].isPrefixOf cs && [d.closing, '"'].isSuffixOf cs then String.ofList (markBefore 2 mark cs)
  else if [d.opening].isPrefixOf cs && [d.closing].isSuffixOf cs then String.ofList (markBefore 1 mark cs)
  else value

/-- A later element of an array: the name of the field and its place in the row. -/
def laterElement (d : Delimiters) (element : Shape) (fieldName place : String) : String :=
  let label := fieldName ++ "_" ++ place
  match element with
  | .object _ _ | .array _ _ _ _ => label
  | _ => if isQuoted element then inQuotes (placeholder d label) else placeholder d label

/-- The text of an array, given that of its first element. -/
def arrayText (d : Delimiters) (element : Shape) (fieldName first : String) : String :=
  "[" ++ markFirst d first ++ ", " ++ laterElement d element fieldName "2" ++ ", "
    ++ laterElement d element fieldName "N" ++ "]"

/-- What the placeholder of a string says. -/
def stringText (text : StringShape) : String :=
  if text.allowed ≠ [] then "|".intercalate text.allowed
  else match text.format with
    | some "" | none => "string value"
    | some format => (StringFormat.ofString format).description

def scalarText (d : Delimiters) : Scalar → String
  | .integer => placeholder d "integer value"
  | .decimal => placeholder d "decimal value"
  | .boolean => placeholder d "true|false"
  | .date => inQuotes (placeholder d "ISO 8601 date value (YYYY-MM-DDThh:mm:ss.sssZ)")
  | .guid => inQuotes (placeholder d "GUID value in standard format")

/-- The values a field may take, if it is a string that lists them. -/
def allowedOf : Shape → List String
  | .string text => text.allowed
  | _ => []

/-- The comment behind a field; empty if there is nothing to say. -/
def comment (description : Option String) (type : Shape) : String :=
  let told := ((description.map Text.trim).filter (· ≠ "")).toList
  let allowed := allowedOf type
  let listed := if allowed = [] then [] else ["Allowed values: " ++ " or ".intercalate allowed]
  match told ++ listed with
  | [] => ""
  | parts => " // " ++ ". ".intercalate parts

def indentation (settings : SampleSettings) (level : Nat) : String :=
  if settings.prettyPrint then String.join (List.replicate level settings.indent) else ""

def objectText (settings : SampleSettings) (level : Nat) (lines : List String) : String :=
  if lines = [] then "\x7b\x7d"
  else
    let newline := if settings.prettyPrint then "\n" else ""
    "\x7b" ++ newline ++ newline.intercalate lines ++ newline ++ indentation settings level ++ "\x7d"

mutual

/-- The text of a shape whose object, if it is one, ends at the given level. Arrays name their later
elements for the field that holds them. -/
def shapeText (settings : SampleSettings) (level : Nat) (fieldName : String) : Shape → Except SampleError String
  | .string text => .ok (inQuotes (placeholder settings.delimiters (stringText text)))
  | .scalar kind _ => .ok (scalarText settings.delimiters kind)
  | .enum _ values => .ok (inQuotes (placeholder settings.delimiters ("|".intercalate values)))
  | .array element _ _ _ => do
    return arrayText settings.delimiters element fieldName (← shapeText settings level fieldName element)
  | .object _ fields => do
    return objectText settings level (← fieldLines settings level fields)
  | .custom kind => .error (.unknownKind kind)

/-- The lines of the fields of an object that ends at the given level. -/
def fieldLines (settings : SampleSettings) (level : Nat) : List (Field Shape) → Except SampleError (List String)
  | [] => .ok []
  | ⟨name, type, description⟩ :: rest => do
    let value ← shapeText settings (level + 1) name type
    let comma := if rest.isEmpty then "" else ","
    let remark := if settings.prettyPrint then comment description type else ""
    let line := indentation settings (level + 1) ++ Json.literal name ++ ": " ++ value ++ comma ++ remark
    return line :: (← fieldLines settings level rest)

end

/-- The sentence that asks for the placeholders to be filled in. -/
def instructions (d : Delimiters) : String :=
  let o := String.singleton d.opening
  let c := String.singleton d.closing
  s!"Replace all placeholders ({o}...{c}) in the format with the actual values extracted from the text. Do not return placeholders or the {o} and {c} characters in the final output."

end Sample

def Shape.sample (shape : Shape) (settings : SampleSettings) : Except SampleError String :=
  Sample.shapeText settings 0 shape.displayName shape

end RecordGrammar
