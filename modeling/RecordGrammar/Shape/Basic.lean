/-!
# Shapes of structured records

A shape says what JSON value stands at a place: a scalar, a string under one constraint, one of the
values of an enumeration, an array of alike elements, or an object whose fields come in a fixed
order. Both the grammar and the sample document of a record are made from its shape.
-/

namespace RecordGrammar

/-- What a string may hold. Allowed values win over the format, and the format over the bounds on
the length. -/
structure StringShape where
  /-- The values the string may take; any, if there are none. -/
  allowed : List String := []
  minLength : Option Nat := none
  maxLength : Option Nat := none
  /-- A named format, a placeholder pattern or a raw grammar fragment. -/
  format : Option String := none
  name : String := "string"
deriving DecidableEq

/-- The kinds of values that have no parts and no constraints. -/
inductive Scalar where
  | integer
  | decimal
  | boolean
  | date
  | guid
deriving DecidableEq

/-- The display name of a scalar that is given none. -/
def Scalar.defaultName : Scalar → String
  | integer => "integer"
  | decimal => "decimal"
  | boolean => "boolean"
  | date => "date-time"
  | guid => "uuid"

/-- A field of an object, over the type of shapes. -/
structure Field (α : Type) where
  name : String
  type : α
  description : Option String := none

inductive Shape where
  | string (text : StringShape)
  | scalar (kind : Scalar) (name : String)
  | enum (name : String) (values : List String)
  | array (element : Shape) (minItems maxItems : Option Nat) (name : String)
  | object (name : String) (fields : List (Field Shape))
  /-- A shape of a kind that neither compiler knows. -/
  | custom (kind : String)

instance : Inhabited Shape := ⟨.string {}⟩

namespace Shape

def displayName : Shape → String
  | string text => text.name
  | scalar _ name => name
  | enum name _ => name
  | array _ _ _ name => name
  | object name _ => name
  | custom kind => kind

/-- The name of the shape's kind in messages. -/
def kindName : Shape → String
  | string _ => "StringNode"
  | scalar .integer _ => "IntegerNode"
  | scalar .decimal _ => "DecimalNode"
  | scalar .boolean _ => "BooleanNode"
  | scalar .date _ => "DateNode"
  | scalar .guid _ => "GuidNode"
  | enum _ _ => "EnumNode"
  | array _ _ _ _ => "ArrayNode"
  | object _ _ => "ObjectNode"
  | custom kind => kind

mutual

def same : Shape → Shape → Bool
  | string a, string b => a == b
  | scalar k a, scalar l b => k == l && a == b
  | enum a vs, enum b ws => a == b && vs == ws
  | array e lo hi a, array f lo' hi' b => e.same f && lo == lo' && hi == hi' && a == b
  | object a fs, object b gs => a == b && sameFields fs gs
  | custom a, custom b => a == b
  | _, _ => false

def sameFields : List (Field Shape) → List (Field Shape) → Bool
  | [], [] => true
  | ⟨a, t, d⟩ :: fs, ⟨b, u, e⟩ :: gs => a == b && t.same u && d == e && sameFields fs gs
  | _, _ => false

end

mutual

theorem same_self : ∀ s : Shape, s.same s = true
  | string _ | scalar _ _ | enum _ _ | custom _ => by simp [same]
  | array e _ _ _ => by simp [same, same_self e]
  | object _ fs => by simp [same, sameFields_self fs]

theorem sameFields_self : ∀ fs : List (Field Shape), sameFields fs fs = true
  | [] => rfl
  | ⟨_, t, _⟩ :: fs => by simp [sameFields, same_self t, sameFields_self fs]

end

mutual

theorem eq_of_same : ∀ {s t : Shape}, s.same t = true → s = t
  | string _, t, h => by cases t <;> simp_all [same]
  | scalar _ _, t, h => by cases t <;> simp_all [same]
  | enum _ _, t, h => by cases t <;> simp_all [same]
  | custom _, t, h => by cases t <;> simp_all [same]
  | array e _ _ _, t, h => by
    cases t <;> simp only [same, Bool.and_eq_true, beq_iff_eq, Bool.false_eq_true] at h
    rw [eq_of_same h.1.1.1, h.1.1.2, h.1.2, h.2]
  | object _ fs, t, h => by
    cases t <;> simp only [same, Bool.and_eq_true, beq_iff_eq, Bool.false_eq_true] at h
    rw [h.1, eq_of_sameFields h.2]

theorem eq_of_sameFields : ∀ {fs gs : List (Field Shape)}, sameFields fs gs = true → fs = gs
  | [], gs, h => by cases gs <;> simp_all [sameFields]
  | ⟨_, t, _⟩ :: fs, gs, h => by
    cases gs with
    | nil => simp [sameFields] at h
    | cons g gs =>
      simp only [sameFields, Bool.and_eq_true, beq_iff_eq] at h
      obtain ⟨⟨⟨hn, ht⟩, hd⟩, hs⟩ := h
      rw [eq_of_sameFields hs, eq_of_same ht, hn, hd]

end

instance : DecidableEq Shape := fun s t =>
  if h : s.same t = true then isTrue (eq_of_same h)
  else isFalse fun e => h (e ▸ same_self s)

/-- What the elements of an array are, through arrays of arrays; any other shape is itself. -/
def withoutArrays : Shape → Shape
  | array e _ _ _ => e.withoutArrays
  | s => s

/-- The same arrays around another innermost shape. -/
def replaceInArrays : Shape → Shape → Shape
  | array e lo hi name, inner => array (e.replaceInArrays inner) lo hi name
  | _, inner => inner

/-- The field of that name that comes first. -/
def findField? (fields : List (Field Shape)) (name : String) : Option (Field Shape) :=
  fields.find? (·.name == name)

end Shape

end RecordGrammar
