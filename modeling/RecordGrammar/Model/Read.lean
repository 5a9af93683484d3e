import RecordGrammar.Model.Basic
import RecordGrammar.Model.Error
import RecordGrammar.Notice
import RecordGrammar.Shape.Basic

/-!
# From models to shapes

A model gives the object of its fields, under their keys and in order. A name without a model and a
cycle of models are found before any shape is read, so reading a family without them ends: each model
is entered at most once on the way down.
-/

namespace RecordGrammar.Family

/-- Reading a model may fail and reports what it does. -/
abbrev Reading (α : Type) := Reporting ModelError α

def readText (c : Constraints) : Shape :=
  match c.extra.text? "format" with
  | some "date-time" => .scalar .date Scalar.date.defaultName
  | some "uuid" => .scalar .guid Scalar.guid.defaultName
  | format => .string { minLength := c.minLength, maxLength := c.maxLength, format }

def readBasic (t : BasicType) (c : Constraints) : Reading Shape :=
  let scalar (kind : Scalar) : Shape := .scalar kind kind.defaultName
  match t with
  | .text => return readText c
  | .integer => return scalar .integer
  | .float | .decimal => return scalar .decimal
  | .boolean => return scalar .boolean
  | .dateTime => return scalar .date
  | .guid => return scalar .guid
  | .date | .time | .bytes | .anything | .nothing | .table | .list => throw (.unsupported t.name)

mutual

/-- Reads a model. `fresh` holds the models not entered on the way to it. -/
def readModel (family : Family) (fresh : List String) (m : Model) : Reading Shape := do
  let fields ← readFields family fresh m.fields
  report (.modelRead m.displayName fields.length)
  return .object m.displayName fields
termination_by (fresh.length, sizeOf m.fields + 1)
decreasing_by exact Prod.Lex.right _ (by omega)

def readFields (family : Family) (fresh : List String) : List ModelField → Reading (List (Field Shape))
  | [] => return []
  | f :: fs => do
    let type ← readType family fresh f.constraints f.type
    return ⟨f.key, type, f.description⟩ :: (← readFields family fresh fs)
termination_by fs => (fresh.length, sizeOf fs)
decreasing_by
  · exact Prod.Lex.right _ (by cases f; simp only [List.cons.sizeOf_spec, ModelField.mk.sizeOf_spec]; omega)
  · exact Prod.Lex.right _ (by simp only [List.cons.sizeOf_spec]; omega)

def readType (family : Family) (fresh : List String) (c : Constraints) : FieldType → Reading Shape
  | .basic t => readBasic t c
  | .bareArray => throw (.noElementType (FieldType.bareArray.shown family.module))
  | .array _ t => return .array (← readType family fresh {} t) c.minLength c.maxLength "array"
  | .literal vs =>
    if vs.all (·.str?.isSome) then return .string { allowed := vs.filterMap Json.str? }
    else throw (.literalsNotTexts vs)
  | .enumeration name vs =>
    if vs.all (·.str?.isSome) then return .enum name (vs.filterMap Json.str?)
    else throw (.enumNotTexts name vs)
  | .model name =>
    if name ∈ fresh then
      match family.find? name with
      | some m => readModel family (fresh.erase name) m
      | none => throw (.undefined name name)
    else throw (.cyclic [name])
  | .annotated t inner => readType family fresh (c.around inner) t
  | .set t => throw (.unsupported ((FieldType.set t).shown family.module))
  | .tuple t => throw (.unsupported ((FieldType.tuple t).shown family.module))
  | .map k v => throw (.unsupported ((FieldType.map k v).shown family.module))
  | .union ts => throw (.unsupported ((FieldType.union ts).shown family.module))
termination_by t => (fresh.length, sizeOf t)
decreasing_by
  · exact Prod.Lex.right _ (by simp only [FieldType.array.sizeOf_spec]; omega)
  · rename_i h
    have := List.length_erase_of_mem h
    have := List.length_pos_of_mem h
    exact Prod.Lex.left _ _ (by omega)
  · exact Prod.Lex.right _ (by simp only [FieldType.annotated.sizeOf_spec]; omega)

end

/-- The shape of the model of that name. -/
def read (family : Family) (root : String) : Reading Shape := do
  match family.find? root with
  | none => throw (.undefined root root)
  | some m =>
    if let some name := family.undefined? root then throw (.undefined root name)
    if let some cycle := family.findCycle root then throw (.cyclic cycle)
    readModel family (family.names.erase root) m

end RecordGrammar.Family
