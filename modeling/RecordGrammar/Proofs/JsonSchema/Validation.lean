import RecordGrammar.JsonSchema.Support
import RecordGrammar.Proofs.Json.Fields

/-!
# When a document passes validation

A schema is well-formed if each of its keywords is, and it has support if it has support itself and so do the schemas inside
it. What a well-formed schema holds under a keyword is as the dialect demands.
-/

namespace RecordGrammar.JsonSchema
open Json

variable {d : Dialect} {key : String} {v : Json} {fs gs : Fields} {vs : List Json} {demand : Demand}

/-- A demand on a value without schemas in it is met as the value is. -/
theorem areWellFormed_plain (demand : Demand) (h : d.demands.lookup key = some demand) (hv : meetsPlain d demand v = true) :
    areWellFormed d [(key, v)] = true := by
  cases demand with
  | schema | schemas | schemaOrSchemas | schemaOrBoolean | schemaTable | patternTable | dependencyTable => cases hv
  | _ => cases v <;> simpa [areWellFormed, h] using hv

theorem areWellFormed_free (h : d.demands.lookup key = none) : areWellFormed d [(key, v)] = true := by
  cases v <;> simp [areWellFormed, h]

theorem areWellFormed_schema (h : d.demands.lookup key = some .schema) (hv : isWellFormed d v = true) :
    areWellFormed d [(key, v)] = true := by
  cases v <;> simp_all [areWellFormed]

theorem areWellFormed_table (h : d.demands.lookup key = some .schemaTable) (hv : ∀ f ∈ gs, isWellFormed d f.2 = true) :
    areWellFormed d [(key, .obj gs)] = true := by
  rw [areWellFormed, h, areWellFormed, Bool.and_true]
  exact tableWellFormed_iff.mpr hv

/-! ### What a well-formed schema holds -/

theorem isWellFormed_cases (h : isWellFormed d v = true) : (∃ b, v = .bool b) ∨ ∃ fs : Fields, v = .obj fs := by
  cases v with
  | bool b => exact .inl ⟨b, rfl⟩
  | obj fs => exact .inr ⟨fs, rfl⟩
  | null | int | float | str | arr => simp [isWellFormed] at h

theorem areWellFormed_of_get? (h : isWellFormed d (.obj fs) = true) (hv : fs.get? key = some v) :
    areWellFormed d [(key, v)] = true := by
  rw [isWellFormed, Bool.and_eq_true] at h
  exact areWellFormed_iff.mp h.1 _ (Fields.mem_of_get? hv)

/-- A value without schemas in it is as demanded. -/
theorem meetsPlain_of_areWellFormed (h : areWellFormed d [(key, v)] = true) (hdemand : d.demands.lookup key = some demand)
    (hplain : demand ∉ [.schema, .schemas, .schemaOrSchemas, .schemaOrBoolean, .schemaTable, .patternTable, .dependencyTable]) :
    meetsPlain d demand v = true := by
  cases demand with
  | schema | schemas | schemaOrSchemas | schemaOrBoolean | schemaTable | patternTable | dependencyTable => simp at hplain
  | _ => cases v <;> simpa [areWellFormed, hdemand] using h

theorem of_schemaTable (h : areWellFormed d [(key, v)] = true) (hdemand : d.demands.lookup key = some .schemaTable) :
    ∃ gs, v = .obj gs ∧ ∀ f ∈ gs, isWellFormed d f.2 = true := by
  cases v with
  | obj gs =>
    rw [areWellFormed, hdemand, areWellFormed, Bool.and_true] at h
    exact ⟨gs, rfl, tableWellFormed_iff.mp h⟩
  | null | bool | int | float | str | arr => simp [areWellFormed, hdemand] at h

theorem of_schemas (h : areWellFormed d [(key, v)] = true) (hdemand : d.demands.lookup key = some .schemas) :
    ∃ vs, v = .arr vs ∧ ∀ w ∈ vs, isWellFormed d w = true := by
  cases v with
  | arr vs =>
    simp only [areWellFormed, hdemand, Bool.and_true, Bool.and_eq_true] at h
    exact ⟨vs, rfl, allWellFormed_iff.mp h.2⟩
  | null | bool | int | float | str | obj => simp [areWellFormed, hdemand] at h

theorem of_schema (h : areWellFormed d [(key, .obj gs)] = true)
    (hdemand : d.demands.lookup key = some .schema ∨ d.demands.lookup key = some .schemaOrSchemas) :
    isWellFormed d (.obj gs) = true := by
  rcases hdemand with hdemand | hdemand <;> simpa [areWellFormed, hdemand] using h

/-- The latest dialects, which know tables of definitions under both names. -/
inductive Dialect.IsLate : Dialect → Prop
  | of2019 : IsLate .of2019
  | of2020 : IsLate .of2020

/-- In the latest dialects no keyword needs another one. -/
theorem isWellFormed_obj_iff (hd : d.IsLate) : isWellFormed d (.obj fs) = true ↔ ∀ f ∈ fs, areWellFormed d [f] = true := by
  have hcompanions : d.companions = [] := by cases hd <;> rfl
  rw [isWellFormed, hcompanions, List.all_nil, Bool.and_true, areWellFormed_iff]

namespace Dialect.IsLate

theorem demand_tables (hd : d.IsLate) :
    ∀ key ∈ ["properties", "$defs", "definitions"], d.demands.lookup key = some .schemaTable := by
  cases hd <;> decide

theorem demand_items (hd : d.IsLate) :
    d.demands.lookup "items" = some .schema ∨ d.demands.lookup "items" = some .schemaOrSchemas := by
  cases hd
  · exact .inr rfl
  · exact .inl rfl

theorem demand_parts (hd : d.IsLate) : d.demands.lookup "allOf" = some .schemas := by
  cases hd <;> rfl

theorem demand_type (hd : d.IsLate) : d.demands.lookup "type" = some .types := by
  cases hd <;> rfl

end Dialect.IsLate

/-! ### Support -/

theorem forM_eq_ok {ε α : Type} {f : α → Except ε Unit} {vs : List α} (h : ∀ v ∈ vs, f v = .ok ()) :
    forM vs f = .ok () := by
  induction vs with
  | nil => rfl
  | cons v vs ih =>
    rw [List.forM_cons, h v List.mem_cons_self, ih fun w hw => h w (List.mem_cons_of_mem v hw)]
    rfl

theorem checkSchema_obj (hown : checkOwn fs = .ok ()) (h : ∀ v ∈ subschemas fs, checkSchema v = .ok ()) :
    checkSchema (.obj fs) = .ok () := by
  rw [checkSchema, hown]
  exact forM_eq_ok fun v _ => h v.1 v.2

theorem checkOwn_ok (hkeywords : ∀ key ∈ unsupportedKeywords, fs.get? key = none)
    (htype : fs.get? "type" = none ∨ ∃ s ∈ supportedTypes, fs.get? "type" = some (.str s)) : checkOwn fs = .ok () := by
  have hfind : unsupportedKeywords.find? fs.has = none := by
    rw [List.find?_eq_none]
    intro key hkey hhas
    unfold Fields.has at hhas
    rw [hkeywords key hkey] at hhas
    cases hhas
  unfold checkOwn
  rw [hfind]
  rcases htype with h | ⟨s, hs, h⟩
  · rw [h]
    rfl
  · rw [h]
    show (if (((some s).map supportedTypes.contains).getD false) = true then pure () else throw _) = Except.ok ()
    rw [Option.map_some, Option.getD_some, if_pos (List.contains_iff_mem.mpr hs)]
    rfl

end RecordGrammar.JsonSchema
