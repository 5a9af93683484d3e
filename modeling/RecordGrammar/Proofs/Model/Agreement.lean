import RecordGrammar.Proofs.JsonSchema.Reading
import RecordGrammar.Proofs.Model.Accepted

/-!
# Both readers agree

A model of a plain family is read as the shape of the fields that its document is read as.
-/

namespace RecordGrammar
open Json JsonSchema Reporting Relation RecordGrammar.Cycle

variable {family : Family} {document gs : Fields} {fresh references : List String} {c : Constraints} {t : FieldType}

/-! ### What an arranged schema holds -/

namespace Describes
variable {base : Fields} {key type s : String} (hgs : Describes c t gs) (hschema : t.schema c [] = base)
include hgs hschema

theorem get?_none (hkey : key ∉ ["title", "description"]) (h : base.get? key = none) : gs.get? key = none := by
  rw [hgs.get? key hkey, hschema, h, Option.map_none]

theorem get?_str (hkey : key ∉ ["title", "description"]) (h : base.get? key = some (.str s)) :
    gs.get? key = some (.str s) := by
  rw [hgs.get? key hkey, hschema, h, Option.map_some, arranged_str]

theorem bound {label : String} {b : Option Nat} (hkey : key ∉ ["title", "description"])
    (h : base.get? key = b.map fun n : Nat => Json.int n) : boundOfJson label ((gs.get? key).getD .null) = .ok b := by
  refine boundOfJson_of_nat ?_
  rw [hgs.get? key hkey, hschema, h]
  cases b with
  | none => rfl
  | some n => exact congrArg some arranged_int

theorem listsNothing (henum : base.get? "enum" = none) (hconst : base.get? "const" = none) : listedValues? gs = none := by
  unfold listedValues?
  rw [hgs.get?_none hschema (by decide) henum, hgs.get?_none hschema (by decide) hconst]
  rfl

theorem typed (hreference : base.get? "$ref" = none) (hparts : base.get? "allOf" = none)
    (htype : base.get? "type" = some (.str type)) : JsonSchema.Settled gs type :=
  .of_type (Fields.text?_of_none (hgs.get?_none hschema (by decide) hreference)) (hgs.get?_none hschema (by decide) hparts)
    (hgs.get?_str hschema (by decide) htype)

end Describes

/-! ### Types -/

section
variable {hint : Option String}

theorem yields_text (h : c.addsFormatOnly = true) (hgs : Describes c (.basic .text) gs) :
    Yields (readSchema document references gs hint false) (Family.readText c) := by
  have hget : ∀ key, ((FieldType.basic .text).schema c []).get? key = _ := fun key => get?_schema_text h
  have hlisted : listedValues? gs = none := hgs.listsNothing rfl (hget _) (hget _)
  have hformat : gs.text? "format" = c.extra.text? "format" := by
    have hschema : ((FieldType.basic .text).schema c []).get? "format" = (c.extra.text? "format").map .str := hget "format"
    rcases hf : c.extra.text? "format" with _ | s
    · rw [hf] at hschema
      exact Fields.text?_of_none (hgs.get?_none rfl (by decide) hschema)
    · rw [hf] at hschema
      exact Fields.text?_of_str (hgs.get?_str rfl (by decide) hschema)
  rw [readSchema_string (hgs.typed rfl (hget _) (hget _) (hget _))]
  refine yields_string ?_
  unfold Family.readText
  rw [← hformat]
  split
  · next hdate => exact .date hlisted hdate
  · next hguid => exact .guid hlisted hguid
  · next hdate hguid =>
    exact .text hlisted ⟨hdate, hguid⟩ (hgs.bound rfl (by decide) (hget _)) (hgs.bound rfl (by decide) (hget _))

theorem yields_formatted {format : String} {kind : Scalar} (hgs : Describes c t gs)
    (hschema : t.schema c [] = typed "string" [("format", .str format)])
    (hformat : format = "date-time" ∧ kind = .date ∨ format = "uuid" ∧ kind = .guid) :
    Yields (readSchema document references gs hint false) (.scalar kind kind.defaultName) := by
  have hget : gs.text? "format" = some format := Fields.text?_of_str (hgs.get?_str hschema (by decide) rfl)
  have hlisted : listedValues? gs = none := hgs.listsNothing hschema rfl rfl
  rw [readSchema_string (hgs.typed hschema rfl rfl rfl)]
  refine yields_string ?_
  rcases hformat with ⟨rfl, rfl⟩ | ⟨rfl, rfl⟩
  · exact .date hlisted hget
  · exact .guid hlisted hget

theorem yields_literal {vs : List Json} (htexts : vs.all (·.str?.isSome) = true) (hgs : Describes {} (.literal vs) gs) :
    Yields (readSchema document references gs hint false) (.string { allowed := vs.filterMap str? }) := by
  rcases FieldType.schema_literal (c := {}) htexts with ⟨s, rfl, hschema⟩ | hschema
  · have hget : gs.get? "const" = some (.str s) := hgs.get?_str (hschema []) (by decide) rfl
    have henum : gs.get? "enum" = none := hgs.get?_none (hschema []) (by decide) rfl
    rw [readSchema_string (hgs.typed (hschema []) rfl rfl rfl)]
    refine yields_listed ?_ htexts
    unfold listedValues?
    rw [henum, hget]
    rfl
  · have hget : gs.get? "enum" = some (.arr vs) := by
      rw [hgs.get? "enum" (by decide), hschema]
      exact congrArg some (arranged_texts htexts)
    rw [readSchema_string (hgs.typed (hschema []) rfl rfl rfl)]
    refine yields_listed ?_ htexts
    unfold listedValues?
    rw [hget]

theorem yields_number {type : String} {kind : Scalar} (hgs : Describes c t gs) (hschema : t.schema c [] = typed type)
    (htype : type = "integer" ∧ kind = .integer ∨ type = "number" ∧ kind = .decimal) :
    Yields (readSchema document references gs hint false) (.scalar kind kind.defaultName) := by
  have htyped : JsonSchema.Settled gs type := hgs.typed hschema rfl rfl rfl
  have henum : gs.has "enum" = false := congrArg Option.isSome (hgs.get?_none hschema (by decide) rfl)
  have hconst : gs.has "const" = false := congrArg Option.isSome (hgs.get?_none hschema (by decide) rfl)
  rcases htype with ⟨rfl, rfl⟩ | ⟨rfl, rfl⟩
  · rw [readSchema_integer htyped]
    exact yields_numeric henum hconst
  · rw [readSchema_number htyped]
    exact yields_numeric henum hconst

theorem yields_items {spelling : ArraySpelling} {items : Fields} {e : Shape} (hc : c.extra = [])
    (hgs : Describes c (.array spelling t) gs) (hitems : gs.get? "items" = some (.obj items))
    (helement : Yields (readSchema document references items none false) e) :
    Yields (readSchema document references gs hint false) (.array e c.minLength c.maxLength "array") := by
  have hget : ∀ key, ((FieldType.array spelling t).schema c []).get? key =
      if key = "type" then some (.str "array") else if key = "items" then some (.obj (t.schema {} []))
      else if key = "minItems" then c.minLength.map fun n : Nat => Json.int n
      else if key = "maxItems" then c.maxLength.map fun n : Nat => Json.int n else none := by
    intro key
    rw [schema_array hc, typed, Fields.get?_cons, Fields.get?_cons, Constraints.itemBounds,
      Constraints.get?_bounds (by decide)]
  have htyped : JsonSchema.Settled gs "array" := hgs.typed rfl (hget _) (hget _) (hget _)
  exact yields_array htyped hitems helement (yields_boundAt (hgs.bound rfl (by decide) (hget _)))
    (yields_boundAt (hgs.bound rfl (by decide) (hget _)))

end

/-- Both readers come to one shape at a model: in the family, and in any schema that refers to its definition. -/
def ModelAgrees (family : Family) (fresh : List String) (document : Fields) (references : List String) (b : String) : Prop :=
  ∃ s, Yields (family.readType fresh {} (.model b)) s ∧ ∀ gs hint isDefinition,
    gs.text? "$ref" = some (definitionReference b) → Yields (readSchema document references gs hint isDefinition) s

/-- Any schema that refers to the definition of the enumeration is read as that. -/
def EnumerationRead (document : Fields) (references : List String) (e : String × List Json) : Prop :=
  ∀ gs hint isDefinition, gs.text? "$ref" = some (definitionReference e.1) →
    Yields (readSchema document references gs hint isDefinition) (.enum e.1 (e.2.filterMap str?))

/-- Both readers come to one shape for a plain type, if they do for the models and enumerations that it mentions. -/
theorem types_agree : ∀ {t : FieldType} {c : Constraints} {gs : Fields}, t.isPlain c = true → Describes c t gs →
    (∀ b ∈ t.models, ModelAgrees family fresh document references b) →
    (∀ e ∈ t.enumerations, EnumerationRead document references e) →
    ∃ s, Yields (family.readType fresh c t) s ∧ ∀ hint, Yields (readSchema document references gs hint false) s
  | .basic .text, c, gs, h, hgs, _, _ => by
    rw [Family.readType]
    exact ⟨_, yields_pure _, fun _ => yields_text h hgs⟩
  | .basic .integer, c, gs, h, hgs, _, _ => by
    cases Constraints.eq_of_isEmpty h
    rw [Family.readType]
    exact ⟨_, yields_pure _, fun _ => yields_number hgs rfl (.inl ⟨rfl, rfl⟩)⟩
  | .basic .float, c, gs, h, hgs, _, _ => by
    cases Constraints.eq_of_isEmpty h
    rw [Family.readType]
    exact ⟨_, yields_pure _, fun _ => yields_number hgs rfl (.inr ⟨rfl, rfl⟩)⟩
  | .basic .boolean, c, gs, h, hgs, _, _ => by
    cases Constraints.eq_of_isEmpty h
    rw [Family.readType]
    refine ⟨_, yields_pure _, fun _ => ?_⟩
    rw [readSchema_boolean (hgs.typed rfl rfl rfl rfl)]
    exact yields_pure _
  | .basic .dateTime, c, gs, h, hgs, _, _ => by
    cases Constraints.eq_of_isEmpty h
    rw [Family.readType]
    exact ⟨_, yields_pure _, fun _ => yields_formatted hgs rfl (.inl ⟨rfl, rfl⟩)⟩
  | .basic .guid, c, gs, h, hgs, _, _ => by
    cases Constraints.eq_of_isEmpty h
    rw [Family.readType]
    exact ⟨_, yields_pure _, fun _ => yields_formatted hgs rfl (.inr ⟨rfl, rfl⟩)⟩
  | .array spelling t, c, gs, h, hgs, hmodels, henums => by
    obtain ⟨hs, hitems, hhs⟩ := hgs.items h
    obtain ⟨hc, ht⟩ := FieldType.of_isPlain_array h
    obtain ⟨e, he, helement⟩ := types_agree (t := t) ht hhs hmodels henums
    rw [Family.readType]
    exact ⟨_, he.bind (yields_pure _), fun _ => yields_items hc hgs hitems (helement none)⟩
  | .literal vs, c, gs, h, hgs, _, _ => by
    obtain ⟨rfl, htexts⟩ := FieldType.of_isPlain_literal h
    rw [Family.readType, if_pos htexts]
    exact ⟨_, yields_pure _, fun _ => yields_literal htexts hgs⟩
  | .enumeration name vs, c, gs, h, hgs, _, henums => by
    obtain ⟨rfl, htexts⟩ := FieldType.of_isPlain_enumeration h
    rw [Family.readType, if_pos htexts]
    exact ⟨_, yields_pure _, fun hint => henums (name, vs) (List.mem_singleton_self _) gs hint false (hgs.reference rfl)⟩
  | .model b, c, gs, h, hgs, hmodels, _ => by
    cases Constraints.eq_of_isEmpty h
    obtain ⟨s, hfamily, hdocument⟩ := hmodels b (List.mem_singleton_self b)
    exact ⟨s, hfamily, fun hint => hdocument gs hint false (hgs.reference rfl)⟩
  | .annotated t inner, c, gs, h, hgs, hmodels, henums => by
    rw [Family.readType]
    exact types_agree (t := t) h ⟨hgs.keys, hgs.texts, hgs.get?⟩ hmodels henums

/-! ### Enumerations -/

theorem yields_definition {e : String × List Json} {hint : Option String} (hname : e.1 ≠ "")
    (htexts : e.2.all (·.str?.isSome) = true) (hgs : Arranges (enumerationSchema e.1 e.2) gs) :
    Yields (readSchema document references gs hint true) (.enum e.1 (e.2.filterMap str?)) := by
  unfold enumerationSchema at hgs
  rw [commonType_texts htexts] at hgs
  have hkeys : (([("enum", Json.arr e.2), ("title", .str e.1)] ++ typed "string").map (·.1)).Nodup := by
    show ["enum", "title", "type"].Nodup
    decide
  have htype : gs.get? "type" = some (.str "string") := (hgs.get? hkeys).trans (congrArg some arranged_str)
  have htyped : JsonSchema.Settled gs "string" := .of_type (Fields.text?_of_none (hgs.get? hkeys)) (hgs.get? hkeys) htype
  have hlisted : listedValues? gs = some e.2 := by
    have henum : gs.get? "enum" = some (.arr e.2) := (hgs.get? hkeys).trans (congrArg some (arranged_texts htexts))
    unfold listedValues?
    rw [henum]
  have htitle : gs.text? "title" = some e.1 :=
    Fields.text?_of_str ((hgs.get? hkeys).trans (congrArg some arranged_str))
  have henum : Yields (readString gs hint true) _ := yields_enumeration hlisted htexts
  rw [readSchema_string htyped]
  rw [htitle] at henum
  have hfirst : Text.firstNonEmpty [some e.1, hint] "enum" = e.1 := by
    simp [Text.firstNonEmpty, hname]
  rwa [hfirst] at henum

/-! ### Models -/

theorem ModelSchema.typed {m : Model} (h : ModelSchema m gs) : JsonSchema.Settled gs "object" :=
  .of_type (Fields.text?_of_none (h.absent "$ref" (by decide))) (h.absent "allOf" (by decide)) h.type

/-- Among the definitions a model has its display name: one without a title of its own is named by its reference. -/
theorem firstNonEmpty_title {m : Model} (h : m.name ≠ "") :
    Text.firstNonEmpty [some (m.title.getD m.name), some m.name] "object" = m.displayName := by
  unfold Model.displayName Text.firstNonEmpty
  rcases m.title with _ | title
  · simp [h]
  · by_cases ht : title = ""
    · simp [ht, h]
    · simp [ht]

/-- A document without a title is an object by name. -/
theorem firstNonEmpty_root {m : Model} (h : m.name ≠ "") :
    Text.firstNonEmpty [some (m.title.getD m.name), none] "object" =
      if m.title = some "" then "object" else m.displayName := by
  unfold Model.displayName Text.firstNonEmpty
  rcases m.title with _ | title
  · simp [h]
  · by_cases ht : title = ""
    · simp [ht]
    · simp [ht]

theorem fields_agree {fs : List ModelField} (hplain : ∀ f ∈ fs, f.type.isPlain f.constraints = true)
    (hmodels : ∀ f ∈ fs, ∀ b ∈ f.type.models, ModelAgrees family fresh document references b)
    (henums : ∀ f ∈ fs, ∀ e ∈ f.type.enumerations, EnumerationRead document references e) :
    ∃ fields, Yields (family.readFields fresh fs) fields ∧ Yields (readProperties document references
      (fs.map fun f => (f.key, (Json.obj f.schema).arranged (keepsOrder f.key)))) fields := by
  induction fs with
  | nil =>
    rw [Family.readFields, List.map_nil, readProperties]
    exact ⟨[], yields_pure _, yields_pure _⟩
  | cons f fs ih =>
    obtain ⟨fields, hfields, hproperties⟩ := ih (fun g hg => hplain g (List.mem_cons_of_mem f hg))
      (fun g hg => hmodels g (List.mem_cons_of_mem f hg)) fun g hg => henums g (List.mem_cons_of_mem f hg)
    obtain ⟨gs, hobj, harranges⟩ := exists_arranges f.schema (keepsOrder f.key)
    have hf := hplain f List.mem_cons_self
    obtain ⟨hgs, hdescription⟩ := Describes.of_field hf harranges
    obtain ⟨s, hs, hread⟩ := types_agree hf hgs (hmodels f List.mem_cons_self) (henums f List.mem_cons_self)
    rw [Family.readFields, List.map_cons, hobj]
    refine ⟨⟨f.key, s, f.description⟩ :: fields, hs.bind (hfields.bind (yields_pure _)), ?_⟩
    rw [← hdescription]
    exact yields_properties_cons (hread _) hproperties

theorem Family.yields_readModel {m : Model} {fields : List (Field Shape)} (h : Yields (family.readFields fresh m.fields) fields) :
    Yields (family.readModel fresh m) (.object m.displayName fields) := by
  rw [readModel]
  exact h.bind ((yields_report _).bind (yields_pure _))

/-- Both readers come to one shape at a model if they come to the same fields in it and in the schema of its definition. -/
theorem modelAgrees_of_fields {n : Model} {target : Fields} {fields : List (Field Shape)} (h : family.IsPlain)
    (hfind : family.find? n.name = some n) (hfresh : n.name ∈ fresh) (hreference : definitionReference n.name ∈ references)
    (htarget : resolve document (definitionReference n.name) = .ok (.obj target)) (hschema : ModelSchema n target)
    (hfields : Yields (family.readFields (fresh.erase n.name) n.fields) fields)
    (hproperties : Yields (readProperties document (references.erase (definitionReference n.name))
      (n.properties.map fun f => (f.1, f.2.arranged (keepsOrder f.1)))) fields) :
    ModelAgrees family fresh document references n.name := by
  obtain ⟨hname, hclass⟩ := h.named n.name (Family.mem_names_of_find? hfind)
  refine ⟨.object n.displayName fields, ?_, fun gs hint isDefinition hr => ?_⟩
  · rw [Family.readType, if_pos hfresh, hfind]
    exact Family.yields_readModel hfields
  · have hobject : Yields (readSchema document (references.erase (definitionReference n.name)) target (some n.name) true) _ :=
      yields_object hschema.typed (Fields.fieldsAt_of_obj hschema.properties ▸ hproperties)
    refine yields_ref hr hreference htarget ?_
    rw [referenceName_definitionReference hclass]
    rw [hschema.title, firstNonEmpty_title hname] at hobject
    exact hobject

namespace Family.IsDocument
variable {m n : Model} {a : String} (h : family.IsPlain) (hm : family.find? m.name = some m)
  (hdoc : family.IsDocument m document)
include h hm hdoc

theorem enumerationRead {e : String × List Json} (hreach : n ∈ family.reachable m.name)
    (he : e ∈ n.fields.flatMap (·.type.enumerations)) (hreference : definitionReference e.1 ∈ references) :
    EnumerationRead document references e := by
  obtain ⟨target, htarget, harranges⟩ := resolve_enumeration h hm hdoc hreach he
  have hmem := mem_enumerations hreach he
  intro gs hint isDefinition hr
  exact yields_ref hr hreference htarget (yields_definition (h.enumerations e hmem).1 (h.texts hmem) harranges)

/-- Below a reachable model where no chain goes on for ever, both readers come to the same fields: each comes to no model
and no reference twice. -/
theorem readFields_agree (hg : Grounded family.mentions a) (hfind : family.find? a = some n)
    (hreach : n ∈ family.reachable m.name) (hgs : ModelSchema n gs)
    (hfresh : ∀ b ∈ n.references, Covered family.mentions fresh b)
    (hreferences : ∀ r ∈ JsonSchema.references (.obj gs), Covered (referencesAt document) references r) :
    ∃ fields, Yields (family.readFields fresh n.fields) fields ∧
      Yields (readProperties document references (n.properties.map fun f => (f.1, f.2.arranged (keepsOrder f.1)))) fields := by
  induction hg generalizing n gs fresh references with
  | @intro a ws hws _ ih =>
    cases hws
    have hplain := h.fields n (mem_models_of_find? hfind)
    have hcovered : ∀ name ∈ n.definitionNames, Covered (referencesAt document) references (definitionReference name) :=
      fun name hname => hreferences _ ((hgs.mem_references_iff hplain).mpr ⟨name, hname, rfl⟩)
    unfold Model.properties
    rw [List.map_map]
    refine fields_agree hplain (fun f hf b hb => ?_) fun f hf e he => ?_
    · have hbn : b ∈ n.references := mem_references_iff.mpr ⟨f, hf, hb⟩
      have href := hcovered b (Model.definitionNames_of_mem_references hbn)
      obtain ⟨n', hfind', hreach'⟩ := h.find?_of_mem_references hreach hbn
      obtain ⟨target, htarget, hschema⟩ := resolve_model h hm hdoc hreach hbn hfind'
      have hfresh' : ∀ b' ∈ n'.references, Covered family.mentions (fresh.erase b) b' := fun b' hb' =>
        (hfresh b hbn).next (edge_mentions_iff.mpr (referencesOf_of_find? hfind' ▸ hb'))
      obtain ⟨fields, hfields, hproperties⟩ := ih b (referencesOf_of_find? hfind ▸ hbn) hfind' hreach' hschema hfresh'
        fun r hr => href.next (edge_iff.mpr ⟨_, htarget, hr⟩)
      cases name_of_find? hfind'
      exact modelAgrees_of_fields h hfind' ((hfresh _ hbn).mem _ .refl) (href.mem _ .refl) htarget hschema hfields hproperties
    · have hename : e.1 ∈ n.definitionNames :=
        List.mem_flatMap.mpr ⟨f, hf, List.mem_append_right _ (List.mem_map_of_mem he)⟩
      exact hdoc.enumerationRead h hm hreach (List.mem_flatMap.mpr ⟨f, hf, he⟩) ((hcovered e.1 hename).mem _ .refl)

/-- A family with a cycle is read as that, and so is its document. -/
theorem outcome_cyclic (hcycle : family.findCycle m.name ≠ none) :
    (∃ ns, (readDocument (.obj document)).outcome.1 = .error (.cyclic ns)) ∧
      ∃ ns, (family.read m.name).outcome.1 = .error (.cyclic ns) := by
  have hundefined := h.undefined?_eq_none m.name
  have hvalid := hdoc.validate h (mem_models_of_find? hm)
  obtain ⟨found, hfound⟩ := findCycle_ok h hm hdoc
  have hsome : found ≠ none := fun hnone => hcycle ((findCycle_document h hm hdoc).mp (hnone ▸ hfound))
  obtain ⟨cycle, rfl⟩ := Option.ne_none_iff_exists'.mp hsome
  obtain ⟨names, hnames⟩ := Option.ne_none_iff_exists'.mp hcycle
  refine ⟨⟨cycle.map referenceName, ?_⟩, names, ?_⟩
  · unfold readDocument
    simp only [hvalid]
    unfold readValid
    simp only [hfound]
    rfl
  · unfold read
    simp only [hm, hundefined, hnames]
    rfl

/-- A family without cycles is read as an object of the fields that its document is read as. Only the names of the two may
differ: a document whose title is empty has none. -/
theorem outcome_acyclic (hcycle : family.findCycle m.name = none) :
    ∃ fields, (readDocument (.obj document)).outcome.1 =
        .ok (.object (if m.title = some "" then "object" else m.displayName) fields) ∧
      (family.read m.name).outcome.1 = .ok (.object m.displayName fields) := by
  have hundefined := h.undefined?_eq_none m.name
  have hvalid := hdoc.validate h (mem_models_of_find? hm)
  have hgrounded := findCycle_eq_none_iff.mp hcycle
  have hfound := (findCycle_document h hm hdoc).mpr hcycle
  have hschema : ModelSchema m document := by
    rcases root_cases h hm hdoc with ⟨-, hschema⟩ | ⟨-, n, hn, hb⟩
    · exact hschema
    · obtain ⟨hfind, hr⟩ := mem_reachable_iff.mp hn
      have hedge : Edge family.mentions n.name m.name := edge_mentions_iff.mpr (referencesOf_of_find? hfind ▸ hb)
      exact absurd (.tail' hr hedge) hgrounded.not_cyclic
  obtain ⟨fields, hfields, hproperties⟩ := readFields_agree h hm hdoc hgrounded hm (mem_reachable_iff.mpr ⟨hm, .refl⟩) hschema
    (fun b hb => covered_of_findCycle hm hundefined hcycle hb) fun r hr => JsonSchema.covered_of_findCycle hfound hr
  refine ⟨fields, ?_, ?_⟩
  · have hobject : Yields (readSchema document (allReferences document) document none false) _ :=
      yields_object hschema.typed (Fields.fieldsAt_of_obj hschema.properties ▸ hproperties)
    rw [hschema.title, firstNonEmpty_root (h.named m.name (mem_names_of_find? hm)).1] at hobject
    unfold readDocument
    simp only [hvalid]
    unfold readValid
    simp only [hfound]
    exact hobject.outcome
  · unfold read
    simp only [hm, hundefined, hcycle]
    exact (yields_readModel hfields).outcome

end Family.IsDocument

/-! ### Whole sources -/

/-- A model of a plain family and its document are both cyclic, or they are read as objects of the same fields. The objects
have the same name as well, unless the model's title is empty: then its document is read as an object by name. -/
theorem readers_agree {root : String} {m : Model} (h : family.IsPlain) (hm : family.find? root = some m) :
    (∃ names names', (readDocument (family.document m)).outcome.1 = .error (.cyclic names) ∧
      (family.read root).outcome.1 = .error (.cyclic names')) ∨
    ∃ fields, (readDocument (family.document m)).outcome.1 =
        .ok (.object (if m.title = some "" then "object" else m.displayName) fields) ∧
      (family.read root).outcome.1 = .ok (.object m.displayName fields) := by
  cases Family.name_of_find? hm
  obtain ⟨document, hdoc⟩ := family.exists_isDocument m
  rw [hdoc.1]
  by_cases hcycle : family.findCycle m.name = none
  · exact .inr (hdoc.outcome_acyclic h hm hcycle)
  · obtain ⟨⟨names, hdocument⟩, names', hfamily⟩ := hdoc.outcome_cyclic h hm hcycle
    exact .inl ⟨names, names', hdocument, hfamily⟩

def line : Model where
  name := "Line"
  title := some "OrderLine"
  fields := [{ name := "sku", type := .basic .text, givenKey := some "SKU",
               constraints := { maxLength := some 8, extra := [("format", .str "AA-999")] } },
             { name := "quantity", type := .basic .integer }]

def order : Model where
  name := "Order"
  fields := [{ name := "lines", type := .array .list (.model "Line"), description := some "Ordered lines",
               constraints := { minLength := some 1 } },
             { name := "color", type := .enumeration "Color" [.str "Red", .str "Green"] },
             { name := "placed", type := .annotated (.basic .dateTime) {} }]

def orders : Family where
  module := "models"
  models := [order, line]

def orderShape : Shape :=
  .object "Order"
    [⟨"lines", .array (.object "OrderLine" [⟨"SKU", .string { maxLength := some 8, format := some "AA-999" }, none⟩,
        ⟨"quantity", .scalar .integer "integer", none⟩]) (some 1) none "array", some "Ordered lines"⟩,
     ⟨"color", .enum "Color" ["Red", "Green"], none⟩,
     ⟨"placed", .scalar .date "date-time", none⟩]

theorem isPlain_orders : orders.IsPlain where
  named := by decide
  fields := by decide
  keys := by decide
  known := by decide
  enumerations := by
    have hone : orders.enumerations = [("Color", [.str "Red", .str "Green"])] := rfl
    rw [hone]
    intro e he
    cases List.mem_singleton.mp he
    exact ⟨by decide, by decide, fun e' he' _ => List.mem_singleton.mp he'⟩

theorem readers_agree_orders : orders.IsPlain ∧ orders.find? "Order" = some order ∧
    (readDocument (orders.document order)).outcome.1 = .ok orderShape ∧ (orders.read "Order").outcome.1 = .ok orderShape := by
  have hread : (orders.read "Order").outcome.1 = .ok orderShape := by cbv
  have hfind : orders.find? "Order" = some order := rfl
  refine ⟨isPlain_orders, hfind, ?_, hread⟩
  rcases readers_agree isPlain_orders hfind with ⟨names, names', -, hcyclic⟩ | ⟨fields, hdocument, hfamily⟩
  · rw [hread] at hcyclic
    cases hcyclic
  · rw [hread] at hfamily
    rw [hdocument]
    exact congrArg Except.ok (Except.ok.inj hfamily).symm

def untitled : Model where
  name := "M"
  title := some ""

/-- A model with an empty title has its own name, and its document is read as an object by name. -/
theorem readers_disagree : Family.IsPlain ⟨"models", [untitled]⟩ ∧
    Family.find? ⟨"models", [untitled]⟩ "M" = some untitled ∧
    (readDocument (Family.document ⟨"models", [untitled]⟩ untitled)).outcome.1 = .ok (.object "object" []) ∧
    (Family.read ⟨"models", [untitled]⟩ "M").outcome.1 = .ok (.object "M" []) := by
  have hplain : Family.IsPlain ⟨"models", [untitled]⟩ :=
    ⟨by decide, by decide, by decide, by decide, fun e he => nomatch he⟩
  have hfind : Family.find? ⟨"models", [untitled]⟩ "M" = some untitled := rfl
  have hread : (Family.read ⟨"models", [untitled]⟩ "M").outcome.1 = .ok (.object "M" []) := by cbv
  refine ⟨hplain, hfind, ?_, hread⟩
  obtain ⟨document, hdoc⟩ := Family.exists_isDocument ⟨"models", [untitled]⟩ untitled
  obtain ⟨fields, hdocument, hfamily⟩ := hdoc.outcome_acyclic hplain hfind (by cbv)
  rw [hdoc.1, hdocument]
  have hfields : Family.read ⟨"models", [untitled]⟩ untitled.name = Family.read ⟨"models", [untitled]⟩ "M" := rfl
  rw [hfields, hread] at hfamily
  cases hfamily
  rfl

end RecordGrammar
