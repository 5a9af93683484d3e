import RecordGrammar.Proofs.JsonSchema.Run

/-!
# What schemas are read as

What the reader yields for each kind of schema, from what the schema holds under the keywords that the reader asks for.
-/

namespace RecordGrammar.JsonSchema
open Json Reporting

variable {document fs target items properties : Fields} {fresh : List String} {hint : Option String} {isDefinition : Bool}
  {r type : String} {s : Shape}

theorem yields_ref (hr : fs.text? "$ref" = some r) (hfresh : r ∈ fresh) (htarget : resolve document r = .ok (.obj target))
    (h : Yields (readSchema document (fresh.erase r) target (some (referenceName r)) true) s) :
    Yields (readSchema document fresh fs hint isDefinition) s := by
  rw [readSchema_reference hr]
  refine (yields_report _).bind ?_
  rw [if_pos hfresh, htarget]
  exact h

/-! ### Types without parts -/

theorem yields_numeric {kind : Scalar} (henum : fs.has "enum" = false) (hconst : fs.has "const" = false) :
    Yields (readNumeric fs kind) (.scalar kind kind.defaultName) := by
  unfold readNumeric
  rw [henum, hconst]
  exact yields_pure _

theorem yields_boundAt {keyword label : String} {b : Option Nat}
    (h : boundOfJson label ((fs.get? keyword).getD .null) = .ok b) : Yields (boundAt fs keyword label) b := by
  unfold boundAt
  rw [h]
  exact yields_pure _

/-- A bound that is a natural number is read as it is. -/
theorem boundOfJson_of_nat {keyword label : String} {b : Option Nat} (h : fs.get? keyword = b.map fun n : Nat => Json.int n) :
    boundOfJson label ((fs.get? keyword).getD .null) = .ok b := by
  rw [h]
  cases b with
  | none => rfl
  | some n =>
    have hn : boundOfInt label n = .ok (some n) := if_neg (Int.not_lt.mpr (Int.natCast_nonneg n))
    exact hn

theorem yields_listed {vs : List Json} (h : listedValues? fs = some vs) (htexts : vs.all (·.str?.isSome) = true) :
    Yields (readString fs hint false) (.string { allowed := vs.filterMap str? }) := by
  unfold readString
  rw [h]
  show Yields (if vs.all (·.str?.isSome) then _ else _) _
  rw [if_pos htexts]
  exact yields_pure _

theorem yields_enumeration {vs : List Json} (h : listedValues? fs = some vs) (htexts : vs.all (·.str?.isSome) = true) :
    Yields (readString fs hint true) (.enum (Text.firstNonEmpty [fs.text? "title", hint] "enum") (vs.filterMap str?)) := by
  unfold readString
  rw [h]
  show Yields (if vs.all (·.str?.isSome) then _ else _) _
  rw [if_pos htexts]
  exact yields_pure _

theorem yields_string (h : ReadsString fs hint isDefinition s) : Yields (readString fs hint isDefinition) s := by
  cases h with
  | enumeration h htexts => exact yields_enumeration h htexts
  | values h htexts => exact yields_listed h htexts
  | date h hf | guid h hf =>
    unfold readString
    rw [h, hf]
    exact yields_pure _
  | text h hf hlo hhi =>
    unfold readString
    rw [h]
    dsimp only
    split
    · next hdate => exact absurd hdate hf.1
    · next hguid => exact absurd hguid hf.2
    · exact (yields_boundAt hlo).bind ((yields_boundAt hhi).bind (yields_pure _))

/-! ### Parts, arrays and objects -/

theorem yields_part {part : Fields} (hr : fs.text? "$ref" = none) (ha : fs.get? "allOf" = some (.arr [.obj part]))
    (h : Yields (readSchema document fresh (mergePart fs part) hint isDefinition) s) :
    Yields (readSchema document fresh fs hint isDefinition) s := by
  rw [readSchema_part hr ha]
  exact h

theorem yields_array {lo hi : Option Nat} (h : Settled fs "array") (hitems : fs.get? "items" = some (.obj items))
    (helement : Yields (readSchema document fresh items none false) s)
    (hlo : Yields (boundAt fs "minItems" "min_items") lo) (hhi : Yields (boundAt fs "maxItems" "max_items") hi) :
    Yields (readSchema document fresh fs hint isDefinition) (.array s lo hi "array") := by
  rw [readSchema_array h hitems]
  exact helement.bind (hlo.bind (hhi.bind (yields_pure _)))

theorem yields_object {fields : List (Field Shape)} (h : Settled fs "object")
    (hfields : Yields (readProperties document fresh (fs.fieldsAt "properties")) fields) :
    Yields (readSchema document fresh fs hint isDefinition)
      (.object (Text.firstNonEmpty [fs.text? "title", hint] "object") fields) := by
  rw [readSchema_object h]
  exact hfields.bind ((yields_report _).bind (yields_pure _))

theorem yields_properties_cons {name : String} {rest : Fields} {fields : List (Field Shape)}
    (h : Yields (readSchema document fresh fs (some name) false) s)
    (hrest : Yields (readProperties document fresh rest) fields) :
    Yields (readProperties document fresh ((name, .obj fs) :: rest)) (⟨name, s, fs.text? "description"⟩ :: fields) := by
  rw [readProperties]
  exact h.bind (hrest.bind (yields_pure _))

end RecordGrammar.JsonSchema
