import RecordGrammar.Json.Shown

/-!
# Types of fields

The fields of a model have types: a type without parts, an array of another type, a list of literals,
an enumeration, a model by its name, and further ones that have no shape. A type may be constrained at
any depth.
-/

namespace RecordGrammar

inductive BasicType where
  | text
  | integer
  | float
  | decimal
  | boolean
  | dateTime
  | date
  | time
  | guid
  | bytes
  | anything
  | nothing
  | table
  | list
deriving DecidableEq

def BasicType.name : BasicType → String
  | text => "str"
  | integer => "int"
  | float => "float"
  | decimal => "Decimal"
  | boolean => "bool"
  | dateTime => "datetime"
  | date => "date"
  | time => "time"
  | guid => "UUID"
  | bytes => "bytes"
  | anything => "Any"
  | nothing => "NoneType"
  | table => "dict"
  | list => "list"

/-- The module that a type comes from; the builtin ones have none. -/
def BasicType.module? : BasicType → Option String
  | decimal => some "decimal"
  | dateTime | date | time => some "datetime"
  | guid => some "uuid"
  | anything => some "typing"
  | _ => none

/-- The name of a type inside another one. -/
def BasicType.qualifiedName (t : BasicType) : String :=
  match t.module? with
  | some m => m ++ "." ++ t.name
  | none => t.name

inductive ArraySpelling where
  | list
  | genericList
  | genericSequence
  | abstractSequence
deriving DecidableEq

/-- The text of an array type without its elements. -/
def ArraySpelling.text : ArraySpelling → String
  | list => "list"
  | genericList => "typing.List"
  | genericSequence => "typing.Sequence"
  | abstractSequence => "collections.abc.Sequence"

/-- What a field, or a constrained type, adds to a type. -/
structure Constraints where
  /-- The least length of a text or an array. -/
  minLength : Option Nat := none
  /-- The greatest length of a text or an array. -/
  maxLength : Option Nat := none
  extra : Json.Fields := []
deriving BEq

/-- Constraints around others: where both set a bound or a keyword, the outer ones count. -/
def Constraints.around (outer inner : Constraints) : Constraints where
  minLength := outer.minLength <|> inner.minLength
  maxLength := outer.maxLength <|> inner.maxLength
  extra := inner.extra.merge outer.extra

def Constraints.shown (c : Constraints) : String :=
  let bound (type label : String) (b : Option Nat) :=
    (b.map fun n => s!"{type}({label}={n})").toList
  let bounds := bound "MinLen" "min_length" c.minLength ++ bound "MaxLen" "max_length" c.maxLength
  "FieldInfo(annotation=NoneType, required=True"
    ++ (if c.extra.isEmpty then "" else ", json_schema_extra=" ++ (Json.obj c.extra).shown)
    ++ (if bounds.isEmpty then "" else ", metadata=[" ++ ", ".intercalate bounds ++ "]") ++ ")"

inductive FieldType where
  | basic (type : BasicType)
  /-- An array type that does not say what its elements are. -/
  | bareArray
  | array (spelling : ArraySpelling) (element : FieldType)
  | set (element : FieldType)
  | tuple (element : FieldType)
  | map (key value : FieldType)
  | union (members : List FieldType)
  | literal (values : List Json)
  | enumeration (name : String) (values : List Json)
  | model (name : String)
  | annotated (type : FieldType) (constraints : Constraints)
deriving BEq

namespace FieldType

/-- The text of a type that is applied to others. -/
def generic (name : String) (arguments : List String) : String :=
  name ++ "[" ++ ", ".intercalate arguments ++ "]"

mutual

/-- The models a type mentions, in order. -/
def models : FieldType → List String
  | array _ t | set t | tuple t | annotated t _ => t.models
  | map k v => k.models ++ v.models
  | union ts => modelsOf ts
  | model name => [name]
  | basic _ | bareArray | literal _ | enumeration _ _ => []

/-- The models that types mention, in order. -/
def modelsOf : List FieldType → List String
  | [] => []
  | t :: ts => t.models ++ modelsOf ts

end

mutual

/-- The text of a type inside another one, and the texts of the constraints on it. Models and
enumerations are named as members of `module`. -/
def parts (module : String) : FieldType → String × List String
  | basic t => (t.qualifiedName, [])
  | bareArray => ("typing.List", [])
  | array spelling t => (generic spelling.text [t.shown module], [])
  | set t => (generic "typing.Set" [t.shown module], [])
  | tuple t => (generic "typing.Tuple" [t.shown module, "..."], [])
  | map k v => (generic "typing.Dict" [k.shown module, v.shown module], [])
  | union [basic .nothing, t] | union [t, basic .nothing] => (generic "typing.Optional" [t.shown module], [])
  | union ts => (generic "typing.Union" (shownAll module ts), [])
  | literal vs => (generic "typing.Literal" (Json.shownElements vs), [])
  | enumeration name _ | model name => (module ++ "." ++ name, [])
  | annotated t c =>
    let (text, inner) := t.parts module
    (text, inner ++ [c.shown])

/-- The text of a type inside another one. -/
def shown (module : String) (t : FieldType) : String :=
  match t.parts module with
  | (text, []) => text
  | (text, constraints) => generic "typing.Annotated" (text :: constraints)

/-- The texts of types inside another one. -/
def shownAll (module : String) : List FieldType → List String
  | [] => []
  | t :: ts => t.shown module :: shownAll module ts

end

/-- The union of types: unions among them are opened up, each type counts once, and a single type
stands for itself. -/
def unionOf (members : List FieldType) : FieldType :=
  let opened := members.flatMap fun
    | union ts => ts
    | t => [t]
  match opened.eraseDups with
  | [t] => t
  | ts => union ts

/-- A type whose value may be missing. -/
def optional (t : FieldType) : FieldType := unionOf [t, basic .nothing]

def literalOf (values : List Json) : FieldType := literal values.eraseDups

end FieldType

/-- What the values of an enumeration are made to be. -/
inductive EnumBase where
  | text
  | integer
  | anything
deriving DecidableEq

/-- The value of a member that is given as `v`. -/
def EnumBase.convert (base : EnumBase) (v : Json) : Json :=
  match base, v with
  | text, .str s => .str s
  | text, v => .str v.shown
  | integer, .bool b => .int b.toNat
  | integer, .float x => ((Decimal.integer? x).map Json.int).getD v
  | _, v => v

/-- Whether two values are equal as members of an enumeration; numbers and truth values are compared as
numbers. -/
def Json.alike (a b : Json) : Bool :=
  let number? : Json → Option Json
    | .bool b => some (.int b.toNat)
    | .float x => ((Decimal.integer? x).map Json.int).orElse fun _ => some (.float x)
    | .int n => some (.int n)
    | _ => none
  match number? a, number? b with
  | some x, some y => x == y
  | none, none => a == b
  | _, _ => false

/-- An enumeration with the given members. One whose value is that of an earlier one adds nothing. -/
def FieldType.enumerationOf (name : String) (base : EnumBase) (members : List Json) : FieldType :=
  .enumeration name <| (members.map base.convert).foldl (fun vs v => if vs.any v.alike then vs else vs ++ [v]) []

end RecordGrammar
