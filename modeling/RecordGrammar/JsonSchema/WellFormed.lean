import RecordGrammar.Decimal.Notation
import RecordGrammar.Json.Basic
import RecordGrammar.JsonSchema.Dialect
import RecordGrammar.JsonSchema.Pattern

/-!
# Well-formed schema documents

A document is well-formed in a dialect if every schema in it gives each keyword a value of the kind
that the dialect demands.
-/

namespace RecordGrammar.JsonSchema

/-- Whether the values are texts and no two of them equal. -/
def areDistinctTexts (vs : List Json) : Bool :=
  vs.all (·.str?.isSome) && decide (vs.filterMap Json.str?).Nodup

def typeNames : List String := ["array", "boolean", "integer", "null", "number", "object", "string"]

def isTypeName (v : Json) : Bool := (v.str?.map typeNames.contains).getD false

/-- Whether the value is an integer that is not negative. -/
def isCount (d : Dialect) : Json → Bool
  | .int n => 0 ≤ n
  | .float x => d.integralDoubles && (Decimal.integer? x).any (0 ≤ ·)
  | _ => false

def isNumber : Json → Bool
  | .int _ | .float _ => true
  | _ => false

/-- Whether the value is a number and not at or below zero. -/
def isPositive : Json → Bool
  | .int n => 0 < n
  | .float x => !(x ≤ 0)
  | _ => false

/-- Whether the value is a truth value. -/
def isBoolean : Json → Bool
  | .bool _ => true
  | _ => false

/-- The text without a line feed at its end. -/
def dropLineFeed (s : List Char) : List Char :=
  match s.reverse with
  | '\n' :: r => r.reverse
  | _ => s

/-- Whether the text is an address without a fragment, or with an empty one. -/
def isAddress (s : String) : Bool :=
  match dropLineFeed (s.toList.dropWhile (· ≠ '#')) with
  | [] | ['#'] => true
  | _ => false

def isAnchor (lowLine : Bool) (s : String) : Bool :=
  match dropLineFeed s.toList with
  | [] => false
  | c :: cs =>
    (c.isAlpha || lowLine && c = '_')
      && cs.all fun c => c.isAlphanum || c = '-' || c = '.' || c = '_' || !lowLine && c = ':'

/-- Whether a value without schemas in it is as demanded. -/
def meetsPlain (d : Dialect) (demand : Demand) (v : Json) : Bool :=
  match demand, v with
  | .names, .arr vs => areDistinctTexts vs
  | .someNames, .arr vs => !vs.isEmpty && areDistinctTexts vs
  | .nameTable, .obj fs => fs.all fun f => (f.2.arr?.map areDistinctTexts).getD false
  | .types, .arr vs => !vs.isEmpty && vs.all isTypeName && areDistinctTexts vs
  | .types, v => isTypeName v
  | .count, v => isCount d v
  | .number, v => isNumber v
  | .positive, v => isPositive v
  | .boolean, v => isBoolean v
  | .booleanTable, .obj fs => fs.all fun f => isBoolean f.2
  | .text, .str _ => true
  | .pattern, .str s => isPattern s
  | .address, .str s => isAddress s
  | .anchor lowLine, .str s => isAnchor lowLine s
  | .values, .arr _ => true
  | _, _ => false

mutual

/-- Whether the value is a well-formed schema. -/
def isWellFormed (d : Dialect) : Json → Bool
  | .bool _ => d.booleanSchemas
  | .obj fs => areWellFormed d fs && d.companions.all fun c => !(Json.Fields.has fs c.1) || Json.Fields.has fs c.2
  | _ => false

/-- Whether every keyword has a value as demanded. -/
def areWellFormed (d : Dialect) : List (String × Json) → Bool
  | [] => true
  | (key, v) :: fs =>
    (match d.demands.lookup key with
      | none => true
      | some .schema => isWellFormed d v
      | some .schemas =>
        match v with
        | .arr vs => !vs.isEmpty && allWellFormed d vs
        | _ => false
      | some .schemaOrSchemas =>
        match v with
        | .arr vs => !vs.isEmpty && allWellFormed d vs
        | v => isWellFormed d v
      | some .schemaOrBoolean => isBoolean v || isWellFormed d v
      | some .schemaTable =>
        match v with
        | .obj gs => tableWellFormed d gs
        | _ => false
      | some .patternTable =>
        match v with
        | .obj gs => gs.all (fun g => isPattern g.1) && tableWellFormed d gs
        | _ => false
      | some .dependencyTable =>
        match v with
        | .obj gs => dependenciesWellFormed d gs
        | _ => false
      | some demand => meetsPlain d demand v)
    && areWellFormed d fs

/-- Whether every element is a well-formed schema. -/
def allWellFormed (d : Dialect) : List Json → Bool
  | [] => true
  | v :: vs => isWellFormed d v && allWellFormed d vs

/-- Whether every field holds a well-formed schema. -/
def tableWellFormed (d : Dialect) : List (String × Json) → Bool
  | [] => true
  | (_, v) :: fs => isWellFormed d v && tableWellFormed d fs

/-- Whether every field holds a well-formed schema or distinct texts. -/
def dependenciesWellFormed (d : Dialect) : List (String × Json) → Bool
  | [] => true
  | (_, v) :: fs =>
    (match v with
      | .arr vs => areDistinctTexts vs
      | v => isWellFormed d v)
    && dependenciesWellFormed d fs

end

section
variable {d : Dialect} {key : String} {v : Json} {fs : Json.Fields} {vs : List Json}

theorem areWellFormed_cons : areWellFormed d ((key, v) :: fs) = (areWellFormed d [(key, v)] && areWellFormed d fs) := by
  cases v with
  | arr | obj => rw [areWellFormed, areWellFormed, areWellFormed, Bool.and_true]
  | null | bool | int | float | str => rw [areWellFormed, areWellFormed, areWellFormed, Bool.and_true] <;> exact nofun

theorem areWellFormed_iff : areWellFormed d fs = true ↔ ∀ f ∈ fs, areWellFormed d [f] = true := by
  induction fs with
  | nil =>
    rw [areWellFormed]
    exact ⟨fun _ => nofun, fun _ => rfl⟩
  | cons f fs ih =>
    obtain ⟨k, v⟩ := f
    rw [areWellFormed_cons, Bool.and_eq_true, ih, List.forall_mem_cons]

theorem allWellFormed_iff : allWellFormed d vs = true ↔ ∀ v ∈ vs, isWellFormed d v = true := by
  induction vs with
  | nil => simp [allWellFormed]
  | cons v vs ih => rw [allWellFormed, Bool.and_eq_true, ih, List.forall_mem_cons]

theorem tableWellFormed_iff : tableWellFormed d fs = true ↔ ∀ f ∈ fs, isWellFormed d f.2 = true := by
  induction fs with
  | nil =>
    rw [tableWellFormed]
    exact ⟨fun _ => nofun, fun _ => rfl⟩
  | cons f fs ih =>
    obtain ⟨k, v⟩ := f
    rw [tableWellFormed, Bool.and_eq_true, ih, List.forall_mem_cons]

end

/-- The dialect a document names; the latest one, if it names none that is known. -/
def dialectOf (fs : Json.Fields) : Dialect :=
  ((Json.Fields.text? fs "$schema").bind Dialect.named?).getD .of2020

/-- Whether the object is a well-formed schema document in the dialect it names. -/
def isDocument (fs : Json.Fields) : Bool := isWellFormed (dialectOf fs) (.obj fs)

end RecordGrammar.JsonSchema
