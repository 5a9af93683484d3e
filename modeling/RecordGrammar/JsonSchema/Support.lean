import RecordGrammar.JsonSchema.Error
import RecordGrammar.JsonSchema.WellFormed

/-!
# Supported schema documents

Not every well-formed document can be read. `checkSchema` walks over the schemas of a document and
reports the first one that uses a keyword or a type without support. A schema comes before those
inside it, and these in the order of `subschemas`.
-/

namespace RecordGrammar.JsonSchema

open Json

/-- The schemas that describe parts of the values of a schema: those of its properties, that of its
elements, and those it is composed of. -/
def children (fs : Fields) : List Json :=
  (fs.fieldsAt "properties").map (·.2)
    ++ (match fs.get? "items" with
      | some (.obj gs) => [.obj gs]
      | _ => [])
    ++ fs.elementsAt "allOf"

/-- The children of a schema and the definitions it holds. -/
def subschemas (fs : Fields) : List Json :=
  children fs ++ (fs.fieldsAt "$defs").map (·.2) ++ (fs.fieldsAt "definitions").map (·.2)

theorem size_lt_of_mem_elements {v : Json} {vs : List Json} (h : v ∈ vs) : v.size < sizeElements vs := by
  induction vs with
  | nil => simp at h
  | cons w vs ih =>
    simp only [sizeElements]
    rcases List.mem_cons.mp h with rfl | h
    · omega
    · have := ih h; omega

theorem size_lt_of_mem_fields {f : String × Json} {fs : Fields} (h : f ∈ fs) : f.2.size < sizeFields fs := by
  induction fs with
  | nil => simp at h
  | cons g fs ih =>
    obtain ⟨k, w⟩ := g
    simp only [sizeFields]
    rcases List.mem_cons.mp h with rfl | h
    · simp only; omega
    · have := ih h; omega

theorem size_lt_of_mem_fieldsAt {v : Json} {fs : Fields} {key : String}
    (h : v ∈ (fs.fieldsAt key).map (·.2)) : v.size < sizeFields fs := by
  obtain ⟨f, hf, rfl⟩ := List.mem_map.mp h
  unfold Fields.fieldsAt at hf
  cases hg : fs.get? key with
  | none => simp [hg] at hf
  | some w =>
    have hw := Fields.size_lt_of_get? hg
    cases w <;> simp [hg, obj?] at hf
    have := size_lt_of_mem_fields hf
    simp only [size] at hw
    omega

theorem size_lt_of_mem_elementsAt {v : Json} {fs : Fields} {key : String}
    (h : v ∈ fs.elementsAt key) : v.size < sizeFields fs := by
  unfold Fields.elementsAt at h
  cases hg : fs.get? key with
  | none => simp [hg] at h
  | some w =>
    have hw := Fields.size_lt_of_get? hg
    cases w <;> simp [hg, arr?] at h
    have := size_lt_of_mem_elements h
    simp only [size] at hw
    omega

theorem size_lt_of_mem_children {v : Json} {fs : Fields} (h : v ∈ children fs) : v.size < sizeFields fs := by
  simp only [children, List.mem_append] at h
  rcases h with (h | h) | h
  · exact size_lt_of_mem_fieldsAt h
  · split at h
    · rename_i gs hg
      rw [List.mem_singleton.mp h]
      exact Fields.size_lt_of_get? hg
    · simp at h
  · exact size_lt_of_mem_elementsAt h

theorem size_lt_of_mem_subschemas {v : Json} {fs : Fields} (h : v ∈ subschemas fs) :
    v.size < sizeFields fs := by
  simp only [subschemas, List.mem_append] at h
  rcases h with (h | h) | h
  · exact size_lt_of_mem_children h
  · exact size_lt_of_mem_fieldsAt h
  · exact size_lt_of_mem_fieldsAt h

/-- Keywords without support, in the order in which they are reported. -/
def unsupportedKeywords : List String :=
  ["anyOf", "oneOf", "not", "if", "then", "else", "patternProperties"]

def supportedTypes : List String := ["object", "array", "string", "integer", "number", "boolean"]

/-- Checks the keywords and the type of a schema itself. -/
def checkOwn (fs : Fields) : Except SchemaError Unit := do
  if let some keyword := unsupportedKeywords.find? fs.has then throw (.unsupportedKeyword keyword)
  match fs.get? "type" with
  | none | some .null => return ()
  | some (.arr ts) => throw (.severalTypes (.arr ts))
  | some t => unless (t.str?.map supportedTypes.contains).getD false do throw (.unsupportedType t)

/-- Checks a schema and all schemas inside it. -/
def checkSchema (v : Json) : Except SchemaError Unit :=
  match v with
  | .obj fs => do
    checkOwn fs
    (subschemas fs).attach.forM fun ⟨w, _⟩ => checkSchema w
  | v => .error (.notASchema v.kindName)
termination_by v.size
decreasing_by
  rename_i h
  have := size_lt_of_mem_subschemas h
  simp only [size]
  omega

/-- Checks that a document is well-formed, and then that it has support. -/
def validate (v : Json) : Except SchemaError Unit :=
  match v with
  | .obj fs => if isDocument fs then checkSchema (.obj fs) else .error .malformed
  | .arr _ | .str _ => .error .malformed
  | v => .error (.notASchema v.kindName)

end RecordGrammar.JsonSchema
