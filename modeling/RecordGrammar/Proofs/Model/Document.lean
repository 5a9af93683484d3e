import RecordGrammar.Proofs.JsonSchema.Definitions
import RecordGrammar.Proofs.Model.Definitions

/-!
# The document of a model

`ModelSchema m gs`: the fields `gs` hold what an arranged schema of the model holds, whether it stands among the definitions
or is the document itself. `IsDocument family m document`: a document as it is made for a model; each reference in it leads to
an arranged definition (`IsDocument.resolve`).
-/

namespace RecordGrammar
open Json JsonSchema

variable {family : Family} {m : Model} {key name : String} {v : Json} {gs more document : Fields}

/-! ### The schema of a model -/

namespace Model

/-- The schemas of the fields under their keys. -/
def properties (m : Model) : Fields := m.fields.map fun f => (f.key, .obj f.schema)

def required (m : Model) : Fields :=
  if m.fields.isEmpty then [] else [("required", Json.arr (m.fields.map (.str ·.key)))]

theorem schema_eq (hkeys : (m.fields.map (·.key)).Nodup) : m.schema =
    ("type", .str "object") :: ("properties", .obj m.properties) :: (m.required ++ [("title", .str (m.title.getD m.name))]) := by
  have hproperties : Fields.merge [] m.properties = m.properties := by
    refine Fields.merge_eq_append ?_
    rw [properties, List.nil_append, List.map_map]
    exact hkeys
  unfold Model.schema
  rw [← properties, hproperties]
  rfl

theorem keys_schema (hkeys : (m.fields.map (·.key)).Nodup) :
    m.schema.map (·.1) = ["type", "properties", "title"] ∨
      m.schema.map (·.1) = ["type", "properties", "required", "title"] := by
  rw [schema_eq hkeys]
  unfold required
  cases m.fields.isEmpty with
  | true => exact .inl rfl
  | false => exact .inr rfl

theorem nodup_schema (hkeys : (m.fields.map (·.key)).Nodup) : (m.schema.map (·.1)).Nodup := by
  rcases keys_schema hkeys with h | h
  · rw [h]
    decide
  · rw [h]
    decide

theorem notMem_keys_schema (hkeys : (m.fields.map (·.key)).Nodup) :
    ∀ key ∈ ["$ref", "$defs", "allOf", "items"], key ∉ m.schema.map (·.1) := by
  rcases keys_schema hkeys with h | h
  · rw [h]
    decide
  · rw [h]
    decide

end Model

/-- The fields hold what an arranged schema of the model holds. -/
structure ModelSchema (m : Model) (gs : Fields) : Prop where
  type : gs.get? "type" = some (.str "object")
  properties : gs.get? "properties" =
    some (.obj (m.properties.map fun f => (f.1, f.2.arranged (keepsOrder f.1))))
  title : gs.text? "title" = some (m.title.getD m.name)
  absent : ∀ key ∈ ["$ref", "allOf", "items"], gs.get? key = none

theorem ModelSchema.of_arranges (hkeys : (m.fields.map (·.key)).Nodup) (hmore : more.map (·.1) ⊆ ["$defs"])
    (hnodup : ((m.schema ++ more).map (·.1)).Nodup) (h : Arranges (m.schema ++ more) gs) : ModelSchema m gs := by
  have hget : ∀ key v, (key, v) ∈ m.schema → gs.get? key = some (v.arranged (keepsOrder key)) := by
    intro key v hmem
    exact Fields.get?_of_mem (h.nodup hnodup) (h.mem_iff.mpr ⟨v, List.mem_append_left _ hmem, rfl⟩)
  rw [Model.schema_eq hkeys] at hget
  refine ⟨?_, ?_, ?_, fun key hkey => ?_⟩
  · rw [hget "type" _ List.mem_cons_self, arranged_str]
  · rw [hget "properties" _ (List.mem_cons_of_mem _ List.mem_cons_self)]
    show some ((Json.obj m.properties).arranged true) = _
    rw [arranged_obj_of_keep, arrangedFields_eq]
  · refine Fields.text?_of_str ?_
    rw [hget "title" (.str (m.title.getD m.name)) (by simp), arranged_str]
  · have hschema : key ∉ m.schema.map (·.1) := by
      refine Model.notMem_keys_schema hkeys key ?_
      revert key
      decide
    have hdefs : key ∉ more.map (·.1) := by
      intro hmem
      have he := List.mem_singleton.mp (hmore hmem)
      rw [he] at hkey
      exact absurd hkey (by decide)
    rw [h.get? hnodup, Fields.get?_eq_none_iff.mpr, Option.map_none]
    rw [List.map_append, List.mem_append, not_or]
    exact ⟨hschema, hdefs⟩

/-! ### Documents -/

namespace Family

/-- What a document holds beside the definitions: a model among them is referred to. -/
def own (family : Family) (m : Model) : Fields :=
  if (family.definitions m.name).has m.name then referenceTo m.name else m.schema

def defs (family : Family) (name : String) : Fields :=
  if (family.definitions name).isEmpty then [] else [("$defs", .obj (family.definitions name))]

/-- The fields of a document of the model. -/
def IsDocument (family : Family) (m : Model) (document : Fields) : Prop :=
  family.document m = .obj document ∧ Arranges (family.own m ++ family.defs m.name) document

theorem exists_isDocument (family : Family) (m : Model) : ∃ document, family.IsDocument m document :=
  exists_arranges (family.own m ++ family.defs m.name) false

theorem keys_defs (family : Family) (name : String) : (family.defs name).map (·.1) = [] ∨ (family.defs name).map (·.1) = ["$defs"] := by
  unfold defs
  cases (family.definitions name).isEmpty with
  | true => exact .inl rfl
  | false => exact .inr rfl

theorem keys_own (h : family.IsPlain) (hm : m ∈ family.models) :
    ((family.own m).map (·.1)).Nodup ∧ "$defs" ∉ (family.own m).map (·.1) := by
  unfold own
  split
  · show (["$ref"] : List String).Nodup ∧ "$defs" ∉ ["$ref"]
    decide
  · have hkeys := h.keys m hm
    exact ⟨Model.nodup_schema hkeys, Model.notMem_keys_schema hkeys "$defs" (by decide)⟩

namespace IsDocument
variable (h : family.IsPlain) (hm : family.find? m.name = some m) (hdoc : family.IsDocument m document)
include h hm

theorem nodup : ((family.own m ++ family.defs m.name).map (·.1)).Nodup := by
  obtain ⟨hown, hdefs⟩ := keys_own h (mem_models_of_find? hm)
  rw [List.map_append]
  rcases keys_defs family m.name with hd | hd
  · rw [hd, List.append_nil]
    exact hown
  · rw [hd]
    refine List.nodup_append.mpr ⟨hown, List.nodup_singleton _, fun a ha b hb he => ?_⟩
    rw [List.mem_singleton.mp hb] at he
    exact hdefs (he ▸ ha)

include hdoc

/-- The definitions that stand in the document are those of the family, arranged. -/
theorem definitions : Arranges (family.definitions m.name) (document.fieldsAt "$defs") := by
  have hget : document.get? "$defs" = _ := hdoc.2.get? (nodup h hm)
  rw [Fields.get?_append, Fields.get?_eq_none_iff.mpr (keys_own h (mem_models_of_find? hm)).2, Option.none_or] at hget
  unfold defs at hget
  unfold Fields.fieldsAt
  rw [hget]
  rcases hd : family.definitions m.name with _ | ⟨f, fs⟩
  · exact .nil
  · obtain ⟨gs, hobj, harranges⟩ := exists_arranges (f :: fs) false
    show Arranges (f :: fs) ((((Json.obj (f :: fs)).arranged false).obj?).getD [])
    rw [hobj]
    exact harranges

theorem resolve (hv : (family.definitions m.name).get? name = some v) :
    JsonSchema.resolve document (definitionReference name) = .ok (v.arranged (keepsOrder name)) := by
  have hget : (document.fieldsAt "$defs").get? name = _ := (definitions h hm hdoc).get? nodup_definitions
  rw [hv] at hget
  exact resolve_definitionReference hget

theorem modelSchema (hhas : (family.definitions m.name).has m.name = false) : ModelSchema m document := by
  have hnodup := nodup h hm
  have harranges := hdoc.2
  unfold own at hnodup harranges
  rw [hhas] at hnodup harranges
  refine ModelSchema.of_arranges (h.keys m (mem_models_of_find? hm)) ?_ hnodup harranges
  rcases keys_defs family m.name with hd | hd
  · rw [hd]
    exact List.nil_subset _
  · rw [hd]
    exact List.Subset.refl _

theorem text?_ref (hhas : (family.definitions m.name).has m.name = true) :
    document.text? "$ref" = some (definitionReference m.name) := by
  have hget : document.get? "$ref" = _ := hdoc.2.get? (nodup h hm)
  unfold own at hget
  rw [if_pos hhas] at hget
  exact Fields.text?_of_str (hget.trans (congrArg some arranged_str))

variable {n n' : Model} {b : String}

theorem resolve_model (hn : n ∈ family.reachable m.name) (hb : b ∈ n.references) (hn' : family.find? b = some n') :
    ∃ target, JsonSchema.resolve document (definitionReference b) = .ok (.obj target) ∧ ModelSchema n' target := by
  have hresolve := resolve h hm hdoc (get?_definitions_model h hn hb hn')
  have hkeys := h.keys n' (mem_models_of_find? hn')
  obtain ⟨target, hobj, harranges⟩ := exists_arranges n'.schema (keepsOrder b)
  rw [hobj] at hresolve
  rw [← List.append_nil n'.schema] at harranges
  refine ⟨target, hresolve, ModelSchema.of_arranges hkeys ?_ ?_ harranges⟩
  · exact List.nil_subset _
  · rw [List.append_nil]
    exact Model.nodup_schema hkeys

theorem resolve_enumeration {e : String × List Json} (hn : n ∈ family.reachable m.name)
    (he : e ∈ n.fields.flatMap (·.type.enumerations)) : ∃ target,
      JsonSchema.resolve document (definitionReference e.1) = .ok (.obj target) ∧
        Arranges (enumerationSchema e.1 e.2) target := by
  have hresolve := resolve h hm hdoc (get?_definitions_enumeration h hn he)
  obtain ⟨target, hobj, harranges⟩ := exists_arranges (enumerationSchema e.1 e.2) (keepsOrder e.1)
  rw [hobj] at hresolve
  exact ⟨target, hresolve, harranges⟩

end IsDocument
end Family
end RecordGrammar
