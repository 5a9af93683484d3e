import RecordGrammar.Proofs.JsonSchema.Descent
import RecordGrammar.Proofs.Model.Document

/-!
# The references of a document and the models of its family

The references between the definitions of a document follow the models of its family: a chain of references goes on just as
long as one of models that mention each other. So both cycle searches agree (`findCycle_document`).

The references that the search comes to are the `Place`s of the document: its root, the models and the enumerations that
reachable models mention. All of them lead somewhere, so the search does not fail.
-/

namespace RecordGrammar
open Json JsonSchema Relation RecordGrammar.Cycle

variable {names : List String} {key name r : String} {v : Json} {gs : Fields} {c : Constraints} {t : FieldType}

/-! ### The references of a plain schema -/

def plainKeywords : List String :=
  ["title", "description", "$ref", "type", "format", "minLength", "maxLength", "minItems", "maxItems", "const", "enum", "items"]

theorem Keyword.mem_plainKeywords (h : Keyword names key v) : key ∈ plainKeywords := by
  cases h with
  | description h =>
    revert key
    decide
  | bound h =>
    revert key
    decide
  | reference | type | format | const | enum | items => decide

theorem Keyword.of_ref (h : Keyword names key v) (hkey : key = "$ref") : ∃ name ∈ names, v = .str (definitionReference name) := by
  cases h with
  | reference h => exact ⟨_, h, rfl⟩
  | description h =>
    rw [hkey] at h
    exact absurd h (by decide)
  | bound h =>
    rw [hkey] at h
    exact absurd h (by decide)
  | type | format | const | enum | items => exact absurd hkey (by decide)

namespace PlainSchema

theorem get?_eq_none (h : PlainSchema names gs) (hkey : key ∉ plainKeywords) : gs.get? key = none := by
  obtain ⟨-, hkeywords, -⟩ := h
  rcases hget : gs.get? key with _ | v
  · rfl
  · exact absurd (hkeywords key v (Fields.mem_of_get? hget)).mem_plainKeywords hkey

theorem mem_children (h : PlainSchema names gs) (hv : v ∈ children gs) : ∃ hs, v = .obj hs ∧ ("items", .obj hs) ∈ gs := by
  rcases mem_children_iff.mp hv with ⟨ps, hp, -⟩ | ⟨hs, hi, rfl⟩ | ⟨vs, ha, -⟩
  · rw [h.get?_eq_none (by decide)] at hp
    cases hp
  · exact ⟨hs, rfl, Fields.mem_of_get? hi⟩
  · rw [h.get?_eq_none (by decide)] at ha
    cases ha

theorem mem_references (h : PlainSchema names gs) (hr : r ∈ references (.obj gs)) :
    ∃ name ∈ names, r = definitionReference name := by
  induction h with
  | intro keys keywords items ih =>
    have hgs : PlainSchema names _ := .intro keys keywords items
    rcases mem_references_iff.mp hr with hr | ⟨v, hv, hr⟩
    · obtain ⟨w, hw, hstr⟩ := Option.bind_eq_some_iff.mp hr
      obtain ⟨name, hname, rfl⟩ := (keywords _ w (Fields.mem_of_get? hw)).of_ref rfl
      cases hstr
      exact ⟨name, hname, rfl⟩
    · obtain ⟨hs, rfl, hmem⟩ := hgs.mem_children hv
      exact ih hs hmem hr

end PlainSchema

/-- A schema refers to all that its type mentions. -/
theorem Describes.reference_mem : ∀ {t : FieldType} {c : Constraints} {gs : Fields}, t.isPlain c = true →
    Describes c t gs → name ∈ t.definitionNames → definitionReference name ∈ references (.obj gs)
  | .annotated t inner, c, gs, h, hgs, hname => reference_mem (t := t) h ⟨hgs.keys, hgs.texts, hgs.get?⟩ hname
  | .array spelling t, c, gs, h, hgs, hname => by
    obtain ⟨hs, hget, hhs⟩ := hgs.items h
    have hchild : Json.obj hs ∈ children gs := mem_children_iff.mpr (.inr (.inl ⟨hs, hget, rfl⟩))
    exact references_subset_of_mem_children hchild (reference_mem (t := t) (FieldType.of_isPlain_array h).2 hhs hname)
  | .model b, c, gs, h, hgs, hname => by
    cases Constraints.eq_of_isEmpty h
    cases List.mem_singleton.mp hname
    exact mem_references_iff.mpr (.inl (hgs.reference rfl))
  | .enumeration e vs, c, gs, h, hgs, hname => by
    cases (FieldType.of_isPlain_enumeration h).1
    cases List.mem_singleton.mp hname
    exact mem_references_iff.mpr (.inl (hgs.reference rfl))
  | .basic _, c, gs, h, hgs, hname | .literal _, c, gs, h, hgs, hname => nomatch hname

/-! ### The references of a model's schema -/

def Model.definitionNames (m : Model) : List String := m.fields.flatMap (·.type.definitionNames)

theorem ModelSchema.mem_references_iff {m : Model} (hm : ModelSchema m gs)
    (h : ∀ f ∈ m.fields, f.type.isPlain f.constraints = true) :
    r ∈ references (.obj gs) ↔ ∃ name ∈ m.definitionNames, r = definitionReference name := by
  have hchildren : ∀ v, v ∈ children gs ↔ ∃ f ∈ m.fields, v = (Json.obj f.schema).arranged (keepsOrder f.key) := by
    intro v
    rw [mem_children_iff, hm.absent "allOf" (by decide), hm.absent "items" (by decide), hm.properties]
    refine ⟨?_, ?_⟩
    · rintro (⟨ps, hp, name, hmem⟩ | ⟨hs, hi, -⟩ | ⟨vs, ha, -⟩)
      · cases hp
        obtain ⟨f', hf', he⟩ := List.mem_map.mp hmem
        obtain ⟨f, hf, rfl⟩ := List.mem_map.mp hf'
        cases he
        exact ⟨f, hf, rfl⟩
      · cases hi
      · cases ha
    · rintro ⟨f, hf, rfl⟩
      exact .inl ⟨_, rfl, f.key, List.mem_map.mpr ⟨_, List.mem_map.mpr ⟨f, hf, rfl⟩, rfl⟩⟩
  rw [JsonSchema.mem_references_iff]
  refine ⟨?_, ?_⟩
  · rintro (hr | ⟨v, hv, hr⟩)
    · rw [Fields.text?_of_none (hm.absent "$ref" (by decide))] at hr
      cases hr
    · obtain ⟨f, hf, rfl⟩ := (hchildren v).mp hv
      obtain ⟨hs, hobj, harranges⟩ := exists_arranges f.schema (keepsOrder f.key)
      rw [hobj] at hr
      obtain ⟨name, hname, rfl⟩ := ((Describes.of_field (h f hf) harranges).1.plainSchema (h f hf)).mem_references hr
      exact ⟨name, List.mem_flatMap.mpr ⟨f, hf, hname⟩, rfl⟩
  · rintro ⟨name, hname, rfl⟩
    obtain ⟨f, hf, hname⟩ := List.mem_flatMap.mp hname
    obtain ⟨hs, hobj, harranges⟩ := exists_arranges f.schema (keepsOrder f.key)
    refine .inr ⟨.obj hs, (hchildren _).mpr ⟨f, hf, hobj.symm⟩, ?_⟩
    exact (Describes.of_field (h f hf) harranges).1.reference_mem (h f hf) hname

theorem Model.mem_definitionNames {m : Model} (h : name ∈ m.definitionNames) :
    name ∈ m.references ∨ ∃ e ∈ m.fields.flatMap (·.type.enumerations), e.1 = name := by
  obtain ⟨f, hf, hname⟩ := List.mem_flatMap.mp h
  rcases List.mem_append.mp hname with hname | hname
  · exact .inl (Family.mem_references_iff.mpr ⟨f, hf, hname⟩)
  · obtain ⟨e, he, rfl⟩ := List.mem_map.mp hname
    exact .inr ⟨e, List.mem_flatMap.mpr ⟨f, hf, he⟩, rfl⟩

theorem Model.definitionNames_of_mem_references {m : Model} (h : name ∈ m.references) : name ∈ m.definitionNames := by
  obtain ⟨f, hf, hname⟩ := Family.mem_references_iff.mp h
  exact List.mem_flatMap.mpr ⟨f, hf, List.mem_append_left _ hname⟩

theorem plainSchema_enumeration {vs : List Json} (h : vs.all (·.str?.isSome) = true)
    (hgs : Arranges (enumerationSchema name vs) gs) : PlainSchema [] gs := by
  unfold enumerationSchema at hgs
  rw [commonType_texts h] at hgs
  have hkeywords : ∀ key v, (key, v) ∈ gs → Keyword [] key v ∧ key ≠ "items" := by
    intro key v hmem
    obtain ⟨w, hw, rfl⟩ := hgs.mem_iff.mp hmem
    rcases List.mem_cons.mp hw with he | hw
    · cases he
      rw [arranged_texts h]
      exact ⟨.enum h, by decide⟩
    · rcases List.mem_cons.mp hw with he | hw
      · cases he
        exact ⟨.of_str (.description (by decide) name), by decide⟩
      · cases List.mem_singleton.mp hw
        exact ⟨.of_str (.type (by decide)), by decide⟩
  refine .intro (hgs.nodup ?_) (fun key v hmem => (hkeywords key v hmem).1) fun hs hmem => ?_
  · show ["enum", "title", "type"].Nodup
    decide
  · exact absurd rfl (hkeywords _ _ hmem).2

/-! ### Places of the cycle search -/

namespace Family

variable {family : Family} {root b : String} {m n : Model} {document : Fields} {s : String}

/-- The references that the search in a document comes to. -/
inductive Place (family : Family) (root : String) : String → Prop
  | root : Place family root rootReference
  | model {n : Model} {b : String} (hn : n ∈ family.reachable root) (hb : b ∈ n.references) :
    Place family root (definitionReference b)
  | enumeration {n : Model} {e : String × List Json} (hn : n ∈ family.reachable root)
    (he : e ∈ n.fields.flatMap (·.type.enumerations)) : Place family root (definitionReference e.1)

theorem Place.of_name (hn : n ∈ family.reachable root) (hname : name ∈ n.definitionNames) :
    Place family root (definitionReference name) := by
  rcases Model.mem_definitionNames hname with hb | ⟨e, he, rfl⟩
  · exact .model hn hb
  · exact .enumeration hn he

theorem IsPlain.texts (h : family.IsPlain) {e : String × List Json} (he : e ∈ family.enumerations) :
    e.2.all (·.str?.isSome) = true := by
  obtain ⟨n, hn, he⟩ := List.mem_flatMap.mp he
  obtain ⟨f, hf, he⟩ := List.mem_flatMap.mp he
  exact FieldType.texts_of_isPlain (h.fields n hn f hf) he

theorem IsPlain.find?_of_mem_references (h : family.IsPlain) (hn : n ∈ family.reachable root) (hb : b ∈ n.references) :
    ∃ n', family.find? b = some n' ∧ n' ∈ family.reachable root := by
  obtain ⟨hfind, hr⟩ := mem_reachable_iff.mp hn
  obtain ⟨n', hn'⟩ := exists_find?_of_mem_names (h.known n (mem_models_of_find? hfind) hb)
  have hedge : Edge family.mentions n.name b := edge_mentions_iff.mpr (referencesOf_of_find? hfind ▸ hb)
  cases name_of_find? hn'
  exact ⟨n', hn', mem_reachable_iff.mpr ⟨hn', hr.tail hedge⟩⟩

theorem IsPlain.undefined?_eq_none (h : family.IsPlain) (root : String) : family.undefined? root = none := by
  refine List.find?_eq_none.mpr fun b hb hnone => ?_
  obtain ⟨n, hn, hb⟩ := List.mem_flatMap.mp hb
  obtain ⟨n', hn', -⟩ := h.find?_of_mem_references hn hb
  rw [hn'] at hnone
  cases hnone

namespace IsDocument
variable (h : family.IsPlain) (hm : family.find? m.name = some m) (hdoc : family.IsDocument m document)
include h hm hdoc

/-- The document itself refers to what its model mentions, or to the model, if that is among the definitions. -/
theorem root_cases : ((family.definitions m.name).has m.name = false ∧ ModelSchema m document) ∨
    (∀ r, r ∈ references (.obj document) ↔ r = definitionReference m.name) ∧
      ∃ n ∈ family.reachable m.name, m.name ∈ n.references := by
  rcases hhas : (family.definitions m.name).has m.name
  · exact .inl ⟨rfl, modelSchema h hm hdoc hhas⟩
  · have hroot := text?_ref h hm hdoc hhas
    have habsent : ∀ key ∈ ["properties", "items", "allOf"], document.get? key = none := by
      intro key hkey
      have hkeys : (family.own m ++ family.defs m.name).map (·.1) ⊆ ["$ref", "$defs"] := by
        unfold own
        rw [if_pos hhas, List.map_append]
        rcases keys_defs family m.name with hd | hd
        · rw [hd, List.append_nil]
          exact List.cons_subset_cons _ (List.nil_subset _)
        · rw [hd]
          exact List.Subset.refl _
      have hother : ∀ key ∈ ["properties", "items", "allOf"], key ∉ ["$ref", "$defs"] := by decide
      rw [hdoc.2.get? (nodup h hm), Fields.get?_eq_none_iff.mpr fun hmem => hother key hkey (hkeys hmem), Option.map_none]
    refine .inr ⟨fun r => ?_, ?_⟩
    · rw [JsonSchema.mem_references_iff, hroot]
      refine ⟨?_, fun he => .inl (he ▸ rfl)⟩
      rintro (he | ⟨v, hv, -⟩)
      · exact (Option.some.inj he).symm
      · rw [mem_children_iff, habsent _ (by decide), habsent _ (by decide), habsent _ (by decide)] at hv
        rcases hv with ⟨_, hv, -⟩ | ⟨_, hv, -⟩ | ⟨_, hv, -⟩
        all_goals cases hv
    · obtain ⟨v, hv⟩ := Option.isSome_iff_exists.mp hhas
      have hmem := mem_entries_of_mem_definitions (Fields.mem_of_get? hv)
      rcases mem_entries_iff.mp hmem with ⟨n', -, hname, -, n, hn, hb⟩ | ⟨n, hn, e, he, hname, -⟩
      · exact ⟨n, hn, hb⟩
      · have hclass := (h.enumerations e (mem_enumerations hn he)).2.1
        exact absurd (hname ▸ mem_names_of_find? hm) hclass

theorem place_references (hr : Place family m.name r) : ∃ target, JsonSchema.resolve document r = .ok (.obj target) ∧
    ∀ s ∈ references (.obj target), Place family m.name s := by
  cases hr with
  | root =>
    refine ⟨document, if_pos rfl, fun s hs => ?_⟩
    rcases root_cases h hm hdoc with ⟨-, hschema⟩ | ⟨hrefs, n, hn, hb⟩
    · obtain ⟨name, hname, rfl⟩ := (hschema.mem_references_iff (h.fields m (mem_models_of_find? hm))).mp hs
      exact .of_name (mem_reachable_iff.mpr ⟨hm, .refl⟩) hname
    · rw [(hrefs s).mp hs]
      exact .model hn hb
  | @model n b hn hb =>
    obtain ⟨n', hfind, hn'⟩ := h.find?_of_mem_references hn hb
    obtain ⟨target, htarget, hschema⟩ := resolve_model h hm hdoc hn hb hfind
    refine ⟨target, htarget, fun s hs => ?_⟩
    obtain ⟨name, hname, rfl⟩ := (hschema.mem_references_iff (h.fields n' (mem_models_of_find? hfind))).mp hs
    exact .of_name hn' hname
  | @enumeration n e hn he =>
    obtain ⟨target, htarget, harranges⟩ := resolve_enumeration h hm hdoc hn he
    refine ⟨target, htarget, fun s hs => ?_⟩
    obtain ⟨name, hname, -⟩ := (plainSchema_enumeration (h.texts (mem_enumerations hn he)) harranges).mem_references hs
    cases hname

theorem place_of_reach (hr : ReflTransGen (Edge (referencesAt document)) rootReference r) : Place family m.name r := by
  induction hr with
  | refl => exact .root
  | tail _ he ih =>
    obtain ⟨target, htarget, hplaces⟩ := place_references h hm hdoc ih
    obtain ⟨v, hv, hs⟩ := edge_iff.mp he
    rw [htarget] at hv
    cases hv
    exact hplaces _ hs

/-- All references that the search comes to lead somewhere, so it does not fail. -/
theorem findCycle_ok : ∃ cycle, JsonSchema.findCycle document = .ok cycle := by
  refine find_ok fun r hr => ?_
  obtain ⟨target, htarget, -⟩ := place_references h hm hdoc (place_of_reach h hm hdoc hr)
  refine ⟨references (.obj target), ?_⟩
  rw [htarget]
  rfl

/-! ### Chains of references and of models -/

theorem grounded_enumeration {e : String × List Json} (hn : n ∈ family.reachable m.name)
    (he : e ∈ n.fields.flatMap (·.type.enumerations)) : Grounded (referencesAt document) (definitionReference e.1) := by
  obtain ⟨target, htarget, harranges⟩ := resolve_enumeration h hm hdoc hn he
  refine (JsonSchema.grounded_iff htarget).mpr fun s hs => ?_
  obtain ⟨name, hname, -⟩ := (plainSchema_enumeration (h.texts (mem_enumerations hn he)) harranges).mem_references hs
  cases hname

/-- Where every chain of models ends, so does every chain of references. -/
theorem grounded_definition (hg : Grounded family.mentions b) (hn : n ∈ family.reachable m.name) (hb : b ∈ n.references) :
    Grounded (referencesAt document) (definitionReference b) := by
  induction hg generalizing n with
  | @intro b ws hws _ ih =>
    cases hws
    obtain ⟨n', hfind, hn'⟩ := h.find?_of_mem_references hn hb
    obtain ⟨target, htarget, hschema⟩ := resolve_model h hm hdoc hn hb hfind
    refine (JsonSchema.grounded_iff htarget).mpr fun s hs => ?_
    obtain ⟨name, hname, rfl⟩ := (hschema.mem_references_iff (h.fields n' (mem_models_of_find? hfind))).mp hs
    rcases Model.mem_definitionNames hname with hname | ⟨e, he, rfl⟩
    · exact ih name (referencesOf_of_find? hfind ▸ hname) hn' hname
    · exact grounded_enumeration h hm hdoc hn' he

/-- Where every chain of references ends, so does every chain of models. -/
theorem grounded_of_definition (hg : Grounded (referencesAt document) r) (hr : r = definitionReference b)
    (hn : n ∈ family.reachable m.name) (hb : b ∈ n.references) : Grounded family.mentions b := by
  induction hg generalizing b n with
  | @intro r ws hws _ ih =>
    subst hr
    obtain ⟨n', hfind, hn'⟩ := h.find?_of_mem_references hn hb
    obtain ⟨target, htarget, hschema⟩ := resolve_model h hm hdoc hn hb hfind
    refine .intro rfl fun b' hb' => ?_
    rw [referencesOf_of_find? hfind] at hb'
    refine ih (definitionReference b') ?_ rfl hn' hb'
    unfold referencesAt at hws
    rw [htarget] at hws
    cases hws
    exact (hschema.mem_references_iff (h.fields n' (mem_models_of_find? hfind))).mpr
      ⟨b', Model.definitionNames_of_mem_references hb', rfl⟩

theorem grounded_root : Grounded (referencesAt document) rootReference ↔ Grounded family.mentions m.name := by
  have hreach : m ∈ family.reachable m.name := mem_reachable_iff.mpr ⟨hm, .refl⟩
  have hroot : JsonSchema.resolve document rootReference = .ok (.obj document) := if_pos rfl
  rw [JsonSchema.grounded_iff hroot]
  rcases root_cases h hm hdoc with ⟨-, hschema⟩ | ⟨hrefs, n, hn, hb⟩
  · have hmem := fun s => hschema.mem_references_iff (r := s) (h.fields m (mem_models_of_find? hm))
    refine ⟨fun hg => .intro rfl fun b hb => ?_, fun hg s hs => ?_⟩
    · rw [referencesOf_of_find? hm] at hb
      have hs := (hmem _).mpr ⟨b, Model.definitionNames_of_mem_references hb, rfl⟩
      exact grounded_of_definition h hm hdoc (hg _ hs) rfl hreach hb
    · obtain ⟨name, hname, rfl⟩ := (hmem s).mp hs
      rcases Model.mem_definitionNames hname with hname | ⟨e, he, rfl⟩
      · have hedge : Edge family.mentions m.name name := edge_mentions_iff.mpr (referencesOf_of_find? hm ▸ hname)
        exact grounded_definition h hm hdoc (hg.edge hedge) hreach hname
      · exact grounded_enumeration h hm hdoc hreach he
  · refine ⟨fun hg => ?_, fun hg s hs => ?_⟩
    · exact grounded_of_definition h hm hdoc (hg _ ((hrefs _).mpr rfl)) rfl hn hb
    · rw [(hrefs s).mp hs]
      exact grounded_definition h hm hdoc hg hn hb

/-- The search in the document finds a cycle just if the search in the family does. -/
theorem findCycle_document : JsonSchema.findCycle document = .ok none ↔ family.findCycle m.name = none := by
  rw [JsonSchema.findCycle_eq_none_iff, findCycle_eq_none_iff, grounded_root h hm hdoc]

end IsDocument
end Family
end RecordGrammar
