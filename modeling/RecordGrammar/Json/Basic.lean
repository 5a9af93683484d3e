/-!
# JSON values

A JSON value keeps the order of its object's fields and tells integers, of any size, from doubles.
`sizeFields_erase_add_le` and `sizeFields_merge_le` bound the size of edited objects, on which recursion over
merged schemas rests.
-/

namespace RecordGrammar

inductive Json where
  | null
  | bool (value : Bool)
  | int (value : Int)
  | float (value : Float)
  | str (value : String)
  | arr (elements : List Json)
  | obj (fields : List (String × Json))
deriving Inhabited, BEq

namespace Json

/-- The fields of an object, in order. -/
abbrev Fields := List (String × Json)

/-- What kind of value it is, by the name messages use. -/
def kindName : Json → String
  | null => "NoneType"
  | bool _ => "bool"
  | int _ => "int"
  | float _ => "float"
  | str _ => "str"
  | arr _ => "list"
  | obj _ => "dict"

def str? : Json → Option String
  | str s => some s
  | _ => none

def arr? : Json → Option (List Json)
  | arr es => some es
  | _ => none

def obj? : Json → Option Fields
  | obj fs => some fs
  | _ => none

mutual

/-- The number of values that a value is made of, itself and the field names included. -/
def size : Json → Nat
  | arr es => sizeElements es + 1
  | obj fs => sizeFields fs + 1
  | _ => 1

/-- The size of the elements of an array. -/
def sizeElements : List Json → Nat
  | [] => 0
  | v :: es => size v + 1 + sizeElements es

/-- The size of the fields of an object. -/
def sizeFields : Fields → Nat
  | [] => 0
  | (_, v) :: fs => size v + 1 + sizeFields fs

end

namespace Fields

def get? (fs : Fields) (key : String) : Option Json := fs.lookup key

/-- Whether there is a field of this name. -/
def has (fs : Fields) (key : String) : Bool := (fs.get? key).isSome

/-- The fields without those of the given name. -/
def erase (fs : Fields) (key : String) : Fields := fs.filter (·.1 != key)

/-- Sets a field: an old one keeps its place, a new one goes to the end. -/
def set : Fields → String → Json → Fields
  | [], key, v => [(key, v)]
  | (k, old) :: fs, key, v => if k == key then (k, v) :: fs else (k, old) :: set fs key v

/-- Sets every field of `new` in turn. -/
def merge (fs new : Fields) : Fields := new.foldl (fun acc f => acc.set f.1 f.2) fs

/-- The text of a field, if it is there and holds a text. -/
def text? (fs : Fields) (key : String) : Option String := (fs.get? key).bind str?

/-- The fields of an object held by a field; none if it is absent or no object. -/
def fieldsAt (fs : Fields) (key : String) : Fields := ((fs.get? key).bind obj?).getD []

/-- The elements of an array held by a field; none if it is absent or no array. -/
def elementsAt (fs : Fields) (key : String) : List Json := ((fs.get? key).bind arr?).getD []

theorem size_lt_of_get? {fs : Fields} {key : String} {v : Json} (h : fs.get? key = some v) :
    v.size < sizeFields fs := by
  induction fs with
  | nil => simp [get?] at h
  | cons f fs ih =>
    obtain ⟨k, w⟩ := f
    simp only [get?, List.lookup_cons] at h
    simp only [sizeFields]
    split at h
    · simp only [Option.some.injEq] at h; subst h; omega
    · have := ih h; omega

theorem sizeFields_erase_le (fs : Fields) (key : String) : sizeFields (fs.erase key) ≤ sizeFields fs := by
  induction fs with
  | nil => simp [erase]
  | cons f fs ih =>
    simp only [erase, List.filter_cons] at ih ⊢
    split <;> simp only [sizeFields] <;> omega

/-- Erasing a field frees its size. -/
theorem sizeFields_erase_add_le {fs : Fields} {key : String} {v : Json} (h : fs.get? key = some v) :
    sizeFields (fs.erase key) + v.size + 1 ≤ sizeFields fs := by
  induction fs with
  | nil => simp [get?] at h
  | cons f fs ih =>
    obtain ⟨k, w⟩ := f
    simp only [get?, List.lookup_cons] at h
    by_cases hk : key = k
    · subst hk
      simp only [beq_self_eq_true, Option.some.injEq] at h
      subst h
      have := sizeFields_erase_le fs key
      simp only [erase, List.filter_cons, bne_self_eq_false, Bool.false_eq_true, ↓reduceIte, sizeFields] at this ⊢
      omega
    · have hb : (key == k) = false := by simpa using hk
      have hn : (k != key) = true := by simpa [bne_iff_ne] using Ne.symm hk
      rw [hb] at h
      have := ih h
      simp only [erase, List.filter_cons, hn, ↓reduceIte, sizeFields] at this ⊢
      omega

theorem sizeFields_set_le (fs : Fields) (key : String) (v : Json) :
    sizeFields (fs.set key v) ≤ sizeFields fs + v.size + 1 := by
  induction fs with
  | nil => simp [set, sizeFields]
  | cons f fs ih =>
    simp only [set]
    split <;> simp only [sizeFields] <;> omega

/-- A merged object is no larger than its two parts. -/
theorem sizeFields_merge_le (fs new : Fields) :
    sizeFields (fs.merge new) ≤ sizeFields fs + sizeFields new := by
  induction new generalizing fs with
  | nil => simp [merge]
  | cons f new ih =>
    have h₁ := ih (fs.set f.1 f.2)
    have h₂ := sizeFields_set_le fs f.1 f.2
    simp only [merge, List.foldl_cons, sizeFields] at h₁ ⊢
    omega

end Fields

end Json

end RecordGrammar
