import RecordGrammar.Proofs.JsonSchema.Validation
import RecordGrammar.Proofs.Model.References

/-!
# Documents of models pass validation

Schemas of plain types are made of few keywords, and so are those of models and documents (`OuterKeyword`). All of these have
values as the latest dialect demands, and all have support, so no document of a plain family is turned away
(`IsDocument.validate`).
-/

namespace RecordGrammar
open Json JsonSchema

variable {names : List String} {key name : String} {v : Json} {gs : Fields}

/-- The value is a well-formed schema with support. -/
def Accepted (v : Json) : Prop := isWellFormed .of2020 v = true ∧ checkSchema v = .ok ()

/-! ### Schemas of plain types -/

theorem Keyword.of_type (h : Keyword names key v) (hkey : key = "type") : ∃ s ∈ supportedTypes, v = .str s := by
  cases h with
  | @type s h =>
    refine ⟨s, ?_, rfl⟩
    revert s
    decide
  | description h =>
    rw [hkey] at h
    exact absurd h (by decide)
  | bound h =>
    rw [hkey] at h
    exact absurd h (by decide)
  | reference | format | const | enum | items => exact absurd hkey (by decide)

theorem Keyword.areWellFormed (h : Keyword names key v)
    (hitems : ∀ hs, key = "items" → v = .obj hs → isWellFormed .of2020 (.obj hs) = true) :
    areWellFormed .of2020 [(key, v)] = true := by
  cases h with
  | description h s =>
    have hdemand : ∀ key ∈ ["title", "description"], Dialect.of2020.demands.lookup key = some .text := by decide
    exact areWellFormed_plain _ (hdemand key h) rfl
  | reference | format => exact areWellFormed_plain .text (by decide) rfl
  | @type s h =>
    have hname : ∀ s ∈ ["string", "integer", "number", "boolean", "array"], isTypeName (.str s) = true := by decide
    exact areWellFormed_plain .types (by decide) (hname s h)
  | bound h n =>
    have hdemand : ∀ key ∈ ["minLength", "maxLength", "minItems", "maxItems"],
        Dialect.of2020.demands.lookup key = some .count := by decide
    exact areWellFormed_plain _ (hdemand key h) (decide_eq_true (Int.natCast_nonneg n))
  | const s => exact areWellFormed_free (by decide)
  | enum => exact areWellFormed_plain .values (by decide) rfl
  | items hs => exact areWellFormed_schema (by decide) (hitems hs rfl rfl)

namespace PlainSchema

theorem isWellFormed (h : PlainSchema names gs) : isWellFormed .of2020 (.obj gs) = true := by
  induction h with
  | intro keys keywords items ih =>
    refine (isWellFormed_obj_iff .of2020).mpr fun f hf => ?_
    obtain ⟨key, v⟩ := f
    refine (keywords key v hf).areWellFormed fun hs hkey hv => ih hs ?_
    rw [← hkey, ← hv]
    exact hf

theorem checkSchema (h : PlainSchema names gs) : JsonSchema.checkSchema (.obj gs) = .ok () := by
  induction h with
  | @intro gs keys keywords items ih =>
    have hgs : PlainSchema names gs := .intro keys keywords items
    have hunsupported : ∀ key ∈ unsupportedKeywords, key ∉ plainKeywords := by decide
    refine checkSchema_obj (checkOwn_ok (fun key hkey => hgs.get?_eq_none (hunsupported key hkey)) ?_) fun v hv => ?_
    · rcases htype : gs.get? "type" with _ | v
      · exact .inl rfl
      · obtain ⟨s, hs, rfl⟩ := (keywords _ v (Fields.mem_of_get? htype)).of_type rfl
        exact .inr ⟨s, hs, rfl⟩
    · unfold subschemas Fields.fieldsAt at hv
      rw [hgs.get?_eq_none (by decide), hgs.get?_eq_none (by decide)] at hv
      have hchild : v ∈ children gs := by simpa using hv
      obtain ⟨hs, rfl, hmem⟩ := hgs.mem_children hchild
      exact ih hs hmem

theorem accepted (h : PlainSchema names gs) : Accepted (.obj gs) := ⟨h.isWellFormed, h.checkSchema⟩

end PlainSchema

theorem accepted_field {f : ModelField} {keep : Bool} (h : f.type.isPlain f.constraints = true) :
    Accepted ((Json.obj f.schema).arranged keep) := by
  obtain ⟨gs, hobj, harranges⟩ := exists_arranges f.schema keep
  rw [hobj]
  exact ((Describes.of_field h harranges).1.plainSchema h).accepted

/-! ### Schemas of models and documents -/

/-- The keywords in schemas of models and in documents. -/
inductive OuterKeyword : String → Json → Prop
  | text {key : String} (h : key ∈ ["$ref", "title"]) (s : String) : OuterKeyword key (.str s)
  | object : OuterKeyword "type" (.str "object")
  | required {keys : List String} (h : keys.Nodup) : OuterKeyword "required" (.arr (keys.map .str))
  | table {key : String} (h : key ∈ ["properties", "$defs"]) {fs : Fields} (hfs : ∀ f ∈ fs, Accepted f.2) :
    OuterKeyword key (.obj fs)

def outerKeywords : List String := ["$ref", "title", "type", "required", "properties", "$defs"]

namespace OuterKeyword

theorem mem_outerKeywords (h : OuterKeyword key v) : key ∈ outerKeywords := by
  cases h with
  | text h =>
    revert key
    decide
  | table h =>
    revert key
    decide
  | object | required => decide

theorem areWellFormed (h : OuterKeyword key v) : areWellFormed .of2020 [(key, v)] = true := by
  cases h with
  | text h s =>
    have hdemand : ∀ key ∈ ["$ref", "title"], Dialect.of2020.demands.lookup key = some .text := by decide
    exact areWellFormed_plain _ (hdemand key h) rfl
  | object => exact areWellFormed_plain .types (by decide) (by decide)
  | @required keys h =>
    refine areWellFormed_plain .names (by decide) ?_
    show areDistinctTexts (keys.map .str) = true
    have htexts : (keys.map Json.str).filterMap str? = keys := by
      rw [List.filterMap_map]
      exact List.filterMap_some
    unfold areDistinctTexts
    rw [htexts, decide_eq_true h, Bool.and_true, List.all_map]
    exact List.all_eq_true.mpr fun _ _ => rfl
  | table h hfs =>
    have hdemand : ∀ key ∈ ["properties", "$defs"], Dialect.of2020.demands.lookup key = some .schemaTable := by decide
    exact areWellFormed_table (hdemand key h) fun f hf => (hfs f hf).1

theorem of_type (h : OuterKeyword key v) (hkey : key = "type") : v = .str "object" := by
  cases h with
  | object => rfl
  | text h =>
    rw [hkey] at h
    exact absurd h (by decide)
  | table h =>
    rw [hkey] at h
    exact absurd h (by decide)
  | required => exact absurd hkey (by decide)

theorem of_table (h : OuterKeyword key v) (hkey : key ∈ ["properties", "$defs"]) :
    ∃ fs, v = .obj fs ∧ ∀ f ∈ fs, Accepted f.2 := by
  cases h with
  | table h hfs => exact ⟨_, rfl, hfs⟩
  | text h =>
    have hdisjoint : ∀ key ∈ ["$ref", "title"], key ∉ ["properties", "$defs"] := by decide
    exact absurd hkey (hdisjoint key h)
  | object | required => exact absurd hkey (by decide)

end OuterKeyword

theorem accepted_of_keywords (h : ∀ key v, (key, v) ∈ gs → OuterKeyword key v) : Accepted (.obj gs) := by
  have hnone : ∀ key ∉ outerKeywords, gs.get? key = none := by
    intro key hkey
    rcases hget : gs.get? key with _ | v
    · rfl
    · exact absurd (h key v (Fields.mem_of_get? hget)).mem_outerKeywords hkey
  have htable : ∀ key ∈ ["properties", "$defs"], ∀ v ∈ (gs.fieldsAt key).map (·.2), checkSchema v = .ok () := by
    intro key hkey v hv
    obtain ⟨f, hf, rfl⟩ := List.mem_map.mp hv
    unfold Fields.fieldsAt at hf
    rcases hget : gs.get? key with _ | w
    · rw [hget] at hf
      cases hf
    · obtain ⟨fs, rfl, hfs⟩ := (h key w (Fields.mem_of_get? hget)).of_table hkey
      rw [hget] at hf
      exact (hfs f hf).2
  refine ⟨(isWellFormed_obj_iff .of2020).mpr fun f hf => (h f.1 f.2 hf).areWellFormed, ?_⟩
  have hunsupported : ∀ key ∈ unsupportedKeywords, key ∉ outerKeywords := by decide
  refine checkSchema_obj (checkOwn_ok (fun key hkey => hnone key (hunsupported key hkey)) ?_) fun v hv => ?_
  · rcases hget : gs.get? "type" with _ | v
    · exact .inl rfl
    · exact .inr ⟨"object", by decide, congrArg some ((h _ v (Fields.mem_of_get? hget)).of_type rfl)⟩
  · unfold subschemas children at hv
    rw [hnone "items" (by decide)] at hv
    unfold Fields.elementsAt at hv
    rw [hnone "allOf" (by decide)] at hv
    have hdefinitions : gs.fieldsAt "definitions" = [] := by
      unfold Fields.fieldsAt
      rw [hnone "definitions" (by decide)]
      rfl
    rw [hdefinitions] at hv
    have hv : v ∈ (gs.fieldsAt "properties").map (·.2) ∨ v ∈ (gs.fieldsAt "$defs").map (·.2) := by simpa using hv
    rcases hv with hv | hv
    · exact htable _ (by decide) v hv
    · exact htable _ (by decide) v hv

namespace Family

variable {family : Family} {root : String} {m : Model} {document : Fields} {keep : Bool}

theorem outerKeyword_model (h : family.IsPlain) (hm : m ∈ family.models) (hmem : (key, v) ∈ m.schema) :
    OuterKeyword key (v.arranged (keepsOrder key)) := by
  rw [Model.schema_eq (h.keys m hm)] at hmem
  rcases List.mem_cons.mp hmem with he | hmem
  · cases he
    rw [arranged_str]
    exact .object
  rcases List.mem_cons.mp hmem with he | hmem
  · cases he
    show OuterKeyword "properties" ((Json.obj m.properties).arranged true)
    rw [arranged_obj_of_keep, arrangedFields_eq]
    refine .table (by decide) fun p hp => ?_
    obtain ⟨q, hq, rfl⟩ := List.mem_map.mp hp
    obtain ⟨f, hf, rfl⟩ := List.mem_map.mp hq
    exact accepted_field (h.fields m hm f hf)
  rcases List.mem_append.mp hmem with hmem | hmem
  · unfold Model.required at hmem
    split at hmem
    · cases hmem
    · cases List.mem_singleton.mp hmem
      have harr : (m.fields.map fun f => Json.str f.key) = (m.fields.map (·.key)).map .str := List.map_map.symm
      rw [arranged_texts, harr]
      · exact .required (h.keys m hm)
      · exact List.all_eq_true.mpr fun v hv => by
          obtain ⟨f, -, rfl⟩ := List.mem_map.mp hv
          rfl
  · cases List.mem_singleton.mp hmem
    rw [arranged_str]
    exact .text (by decide) _

theorem accepted_definition (h : family.IsPlain) (hmem : (name, v) ∈ family.definitions root) :
    Accepted (v.arranged keep) := by
  rcases mem_entries_iff.mp (mem_entries_of_mem_definitions hmem) with ⟨m, hm, -, rfl, -⟩ | ⟨n, hn, e, he, -, rfl⟩
  · obtain ⟨gs, hobj, harranges⟩ := exists_arranges m.schema keep
    rw [hobj]
    refine accepted_of_keywords fun key w hw => ?_
    obtain ⟨v, hv, rfl⟩ := harranges.mem_iff.mp hw
    exact outerKeyword_model h (mem_models_of_find? (mem_reachable_iff.mp hm).1) hv
  · obtain ⟨gs, hobj, harranges⟩ := exists_arranges (enumerationSchema e.1 e.2) keep
    rw [hobj]
    exact (plainSchema_enumeration (h.texts (mem_enumerations hn he)) harranges).accepted

theorem IsDocument.outerKeyword (h : family.IsPlain) (hm : m ∈ family.models) (hdoc : family.IsDocument m document)
    (hmem : (key, v) ∈ document) : OuterKeyword key v := by
  obtain ⟨w, hw, rfl⟩ := hdoc.2.mem_iff.mp hmem
  rcases List.mem_append.mp hw with hw | hw
  · unfold own at hw
    split at hw
    · cases List.mem_singleton.mp hw
      rw [arranged_str]
      exact .text (by decide) _
    · exact outerKeyword_model h hm hw
  · unfold defs at hw
    split at hw
    · cases hw
    · cases List.mem_singleton.mp hw
      obtain ⟨gs, hobj, harranges⟩ := exists_arranges (family.definitions m.name) (keepsOrder "$defs")
      rw [hobj]
      refine .table (by decide) fun f hf => ?_
      obtain ⟨v, hv, he⟩ := harranges.mem_iff.mp hf
      exact he ▸ accepted_definition h hv

/-- No document of a plain family is turned away. -/
theorem IsDocument.validate (h : family.IsPlain) (hm : m ∈ family.models) (hdoc : family.IsDocument m document) :
    JsonSchema.validate (.obj document) = .ok () := by
  obtain ⟨hwell, hcheck⟩ := accepted_of_keywords fun _ _ hmem => hdoc.outerKeyword h hm hmem
  have hschema : document.get? "$schema" = none := by
    rcases hget : document.get? "$schema" with _ | v
    · rfl
    · exact absurd (hdoc.outerKeyword h hm (Fields.mem_of_get? hget)).mem_outerKeywords (by decide)
  have hdialect : dialectOf document = .of2020 := by
    unfold dialectOf Fields.text?
    rw [hschema]
    rfl
  have hdocument : isDocument document = true := by
    unfold isDocument
    rw [hdialect]
    exact hwell
  exact (if_pos hdocument).trans hcheck

end Family
end RecordGrammar
