import RecordGrammar.Proofs.Grammar.Names
import RecordGrammar.Proofs.JsonSchema.Expansion
import RecordGrammar.Proofs.JsonSchema.Outcome
import RecordGrammar.Proofs.JsonSchema.Places

/-!
# References are transparent to the grammar

An expanded document (`IsExpansion`) is the expansion of a document with the definitions of the document, as they stand or
expanded. `expansion_transparent`: as long as no definition lists values and parts stand alone, what is read from an expanded
document differs in names and descriptions only, and so has the same grammar.
-/

namespace RecordGrammar.JsonSchema
open Json Relation RecordGrammar.Cycle

/-- The definition stands as it is, or expanded. -/
inductive KeepsDefinition (document : Fields) : Json → Json → Prop
  | same {v : Json} : KeepsDefinition document v v
  | expanded {fs gs : Fields} (h : Expands document fs gs) : KeepsDefinition document (.obj fs) (.obj gs)

inductive KeepsTable (document : Fields) : Json → Json → Prop
  | same {v : Json} : KeepsTable document v v
  | definitions {ds ds' : Fields} (h : Aligned (KeepsDefinition document) ds ds') : KeepsTable document (.obj ds) (.obj ds')

/-- The tables of definitions of a document. -/
def tables (document : Fields) : Fields := document.filter fun f => f.1 ∈ definitionTables.map (·.2)

/-- The document is the expansion of the other one, whose definitions it keeps. -/
inductive IsExpansion (document : Fields) : Fields → Prop
  | intro {gs ts : Fields} (h : Expands document document gs) (ht : Aligned (KeepsTable document) (tables document) ts) :
    IsExpansion document (gs.merge ts)

/-- A reference that is followed when the document is read leads to the schema, by itself or by way of its part. -/
inductive Referenced (document : Fields) : Fields → Prop
  | definition {fs target : Fields} {r : String} (h : Called document (.obj fs)) (hr : fs.text? "$ref" = some r)
    (ht : resolve document r = .ok (.obj target)) : Referenced document target
  | part {fs part : Fields} (h : Referenced document fs) (hr : fs.text? "$ref" = none)
    (ha : fs.get? "allOf" = some (.arr [.obj part])) : Referenced document (mergePart fs part)

/-- No reference that is followed leads to a definition that lists its values. -/
def DefinitionsListNothing (document : Fields) : Prop :=
  ∀ fs : Fields, Referenced document fs → fs.get? "enum" = none ∧ fs.get? "const" = none

variable {document e fs gs ps ps' : Fields} {v w : Json} {r key type : String} {hint : Option String} {d : Bool} {s : Shape}

/-! ### Reading -/

/-- A text that lists no values if it is a definition is read alike from schemas that agree, whether it is one or not. -/
theorem ReadsString.alike (h : ReadsString fs hint d s) (ha : Alike fs gs)
    (hlisted : d = true → fs.get? "enum" = none ∧ fs.get? "const" = none) {hint' : Option String} :
    ReadsString gs hint' false s := by
  have hvalues : listedValues? gs = listedValues? fs := by
    unfold listedValues?
    rw [ha "enum" (by decide), ha "const" (by decide)]
  have hformat : gs.text? "format" = fs.text? "format" := ha.text? (by decide)
  cases h with
  | enumeration h =>
    obtain ⟨henum, hconst⟩ := hlisted rfl
    unfold listedValues? at h
    rw [henum, hconst] at h
    cases h
  | values h htexts => exact .values (hvalues.trans h) htexts
  | date h hf => exact .date (hvalues.trans h) (hformat.trans hf)
  | guid h hf => exact .guid (hvalues.trans h) (hformat.trans hf)
  | text h hf hlo hhi =>
    rw [← hformat]
    refine .text (hvalues.trans h) (hformat.symm ▸ hf) ?_ ?_
    · rw [← ha "minLength" (by decide)]
      exact hlo
    · rw [← ha "maxLength" (by decide)]
      exact hhi

/-- What is read from a schema without schemas in it depends on its keywords only, up to the name of an object. -/
theorem exists_reads_plain (hr : Reads document fs hint d s) (hs : Settled fs type) (harray : type ≠ "array")
    (hobject : type = "object" → ∀ ps, fs.get? "properties" ≠ some (.obj ps)) (ha : Alike fs gs)
    (hlisted : d = true → fs.get? "enum" = none ∧ fs.get? "const" = none) {hint' : Option String} :
    ∃ s', Reads e gs hint' false s' ∧ s'.unnamed = s.unnamed := by
  have hhas : ∀ {key : String}, key ∉ annotations → fs.has key = false → gs.has key = false := fun hkey h =>
    (ha.has hkey).trans h
  cases hr with
  | definition hq => cases hs.reference.symm.trans hq
  | part _ hp => cases hs.parts.symm.trans hp
  | string hs' h => exact ⟨s, .string (hs'.alike ha) (h.alike ha hlisted), rfl⟩
  | integer hs' henum hconst => exact ⟨_, .integer (hs'.alike ha) (hhas (by decide) henum) (hhas (by decide) hconst), rfl⟩
  | number hs' henum hconst => exact ⟨_, .number (hs'.alike ha) (hhas (by decide) henum) (hhas (by decide) hconst), rfl⟩
  | boolean hs' => exact ⟨_, .boolean (hs'.alike ha), rfl⟩
  | array hs' => exact absurd (hs.type_eq hs') harray
  | object hs' h =>
    have hnone := hobject (hs.type_eq hs')
    have hnone' : ∀ ps, gs.get? "properties" ≠ some (.obj ps) := fun ps hp => hnone ps ((ha "properties" (by decide)).trans hp)
    rw [Fields.fieldsAt_of_ne_obj hnone] at h
    cases h
    exact ⟨_, .object (hs'.alike ha) (Fields.fieldsAt_of_ne_obj hnone' ▸ .nil), rfl⟩

theorem exists_readsFields {Q : Fields → Fields → Prop} {fields : List (Field Shape)} (h : Aligned (OnSchemas Q) ps ps')
    (hread : ∀ name fs gs s, (name, .obj fs) ∈ ps → Q fs gs → Reads document fs (some name) false s →
      ∃ s', Reads e gs (some name) false s' ∧ s'.unnamed = s.unnamed) (hr : ReadsFields document ps fields) :
    ∃ fields', ReadsFields e ps' fields' ∧ Shape.unnamedFields fields' = Shape.unnamedFields fields := by
  induction h generalizing fields with
  | nil =>
    cases hr
    exact ⟨[], .nil, rfl⟩
  | @cons p p' ps ps' h _ ih =>
    obtain ⟨name', v⟩ := p'
    cases hr with
    | @cons fs _ name s fields hr hrest =>
      obtain ⟨rfl, h⟩ := h
      cases h with
      | @intro _ gs h =>
        obtain ⟨s', hs', hs⟩ := hread name fs gs s List.mem_cons_self h hr
        have hread' := fun name fs gs s hmem => hread name fs gs s (List.mem_cons_of_mem _ hmem)
        obtain ⟨fields', hfields', hfields⟩ := ih hread' hrest
        refine ⟨_, .cons hs' hfields', ?_⟩
        rw [Shape.unnamedFields, Shape.unnamedFields, hs, hfields]

/-- From the expansion of a schema a shape is read that differs from that of the schema in names and descriptions only. -/
theorem Expands.exists_reads (hx : Expands document fs gs) (hdoc : Checked (.obj document))
    (hlisted : DefinitionsListNothing document) (hparts : PartsStandAlone document) {fs₀ hs : Fields}
    (hfs : Checked (.obj fs)) (ha : Alike fs fs₀) (hcalled : Called document (.obj fs₀))
    (hd : d = true → Referenced document fs₀) (hr : Reads document fs₀ hint d s) (hgs : Alike gs hs)
    {hint' : Option String} : ∃ s', Reads e hs hint' false s' ∧ s'.unnamed = s.unnamed := by
  induction hx using Expands.induct generalizing fs₀ hs hint d s hint' with
  | definition hq ht _ ih =>
    have hq₀ := (ha.text? (by decide)).trans hq
    exact ih (hdoc.resolve ht) .refl (.next hcalled (.definition hq₀ ht)) (fun _ => .definition hcalled hq₀ ht)
      (hr.of_definition hq₀ ht) hgs
  | @part fs part part' hq hp h ih =>
    have hq₀ := (ha.text? (by decide)).trans hq
    have hp₀ := (ha "allOf" (by decide)).symm.trans hp
    have hpart := hfs.holds (.part hp (i := 0) rfl)
    have hpart' := h.checked hdoc hpart
    have halone₀ := hparts fs₀ hcalled (by simp [hp₀])
    have halone : ∀ key ∉ "allOf" :: annotations, hs.get? key = none := by
      intro key hkey
      rw [hgs.get?_set_of_notMem ha hkey, halone₀ key hkey]
    have hpartAlike := Alike.mergePart halone₀ (hasDistinctKeys_obj.mp hpart.distinct).1
    have hpartAlike' := Alike.mergePart halone (hasDistinctKeys_obj.mp hpart'.distinct).1
    obtain ⟨s', hs', hu⟩ := ih hpart hpartAlike (.next hcalled (.part hq₀ hp₀)) (fun hd' => .part (hd hd') hq₀ hp₀)
      (hr.of_part hq₀ hp₀) hpartAlike'
    have hreference : hs.text? "$ref" = none := Fields.text?_of_none (halone "$ref" (by decide))
    exact ⟨s', .part hreference (hgs.get?_set_self (by decide)) hs', hu⟩
  | @array fs items items' hs' hi _ ih =>
    obtain ⟨items₀, element, lo, hi₀, hitems₀, helement, hlo, hhi, rfl⟩ := hr.of_array (hs'.alike ha)
    cases ((ha "items" (by decide)).symm.trans hi).symm.trans hitems₀
    have hcalled' : Called document (.obj items) := .next hcalled (.items (hs'.alike ha) hitems₀)
    obtain ⟨element', helement', hu⟩ := ih (hfs.holds (.items hi)) .refl hcalled' (by simp) helement .refl
    have hsettled : Settled hs "array" := (hs'.set (by simp [Fields.has, hi]) (by decide)).alike hgs
    refine ⟨.array element' lo hi₀ "array", .array hsettled (hgs.get?_set_self (by decide)) helement' ?_ ?_, ?_⟩
    · rw [hgs.get?_set_of_notMem ha (by decide), hlo]
    · rw [hgs.get?_set_of_notMem ha (by decide), hhi]
    · rw [Shape.unnamed, Shape.unnamed, hu]
  | @object fs ps ps' hs' hp _ ih =>
    have hs₀ := hs'.alike ha
    obtain ⟨name, fields, hfields, rfl⟩ := hr.of_object hs₀
    have hp₀ := (ha "properties" (by decide)).symm.trans hp
    have hat := Fields.fieldsAt_of_obj hp₀
    rw [hat] at hfields
    obtain ⟨fields', hfields', hu⟩ : ∃ fields', ReadsFields e ps' fields' ∧
        Shape.unnamedFields fields' = Shape.unnamedFields fields := by
      refine exists_readsFields ih (fun name f g s hmem hx hr => ?_) hfields
      obtain ⟨_, ih⟩ := hx
      obtain ⟨i, hi⟩ := List.mem_iff_getElem?.mp hmem
      exact ih (hfs.holds (.property hp hi)) .refl (.next hcalled (.property hs₀ (hat ▸ hmem))) (by simp) hr .refl
    have hsettled : Settled hs "object" := (hs'.set (by simp [Fields.has, hp]) (by decide)).alike hgs
    have hproperties : hs.get? "properties" = some (.obj ps') := hgs.get?_set_self (by decide)
    refine ⟨_, .object hsettled (Fields.fieldsAt_of_obj hproperties ▸ hfields'), ?_⟩
    rw [Shape.unnamed, Shape.unnamed, hu]
  | plain hs' harray hobject =>
    have halike : Alike fs₀ hs := fun key hkey => (ha key hkey).symm.trans (hgs key hkey)
    refine exists_reads_plain hr (hs'.alike ha) harray (fun ht ps hp => ?_) halike fun hd' => hlisted fs₀ (hd hd')
    exact hobject ht ps ((ha "properties" (by decide)).trans hp)

/-! ### The expanded document -/

section
variable {ts : Fields} {t : Json} {table name : String}

theorem KeepsDefinition.checked (h : KeepsDefinition document v w) (hdoc : Checked (.obj document)) (hv : Checked v) :
    Checked w := by
  cases h with
  | same => exact hv
  | expanded hx => exact hx.checked hdoc hv

theorem KeepsDefinition.references (h : KeepsDefinition document v w) (hr : r ∈ references w) :
    ∃ q ∈ JsonSchema.references v, ReflTransGen (Edge (referencesAt document)) q r := by
  cases h with
  | same => exact ⟨r, hr, .refl⟩
  | expanded hx => exact hx.references hr

theorem get?_tables : (tables document).get? key = if key ∈ definitionTables.map (·.2) then document.get? key else none := by
  rw [tables, @Fields.get?_filter document key fun key => decide (key ∈ definitionTables.map (·.2))]
  simp only [decide_eq_true_eq]

variable (ht : Aligned (KeepsTable document) (tables document) ts)
include ht

theorem exists_table (hts : ts.get? key = some t) :
    key ∈ definitionTables.map (·.2) ∧ ∃ t₀, document.get? key = some t₀ ∧ KeepsTable document t₀ t := by
  obtain ⟨t₀, ht₀, h⟩ := ht.exists_of_get? hts
  rw [get?_tables] at ht₀
  split at ht₀
  · next hkey => exact ⟨hkey, t₀, ht₀, h⟩
  · cases ht₀

theorem get?_of_notMem (hkey : key ∉ definitionTables.map (·.2)) : ts.get? key = none := by
  rw [Option.eq_none_iff_forall_ne_some]
  exact fun t hts => hkey (exists_table ht hts).1

theorem keys_nodup (hdoc : Checked (.obj document)) : (ts.map (·.1)).Nodup :=
  ht.keys ▸ (hasDistinctKeys_obj.mp hdoc.distinct).1.sublist (List.filter_sublist.map _)

/-- All definitions in the kept tables have passed the walk. -/
theorem checked_of_table (hdoc : Checked (.obj document)) (hts : ts.get? table = some t) :
    t.hasDistinctKeys = true ∧ ∀ ds : Fields, t = .obj ds → ∀ f ∈ ds, Checked f.2 := by
  obtain ⟨htable, t₀, ht₀, hkeeps⟩ := exists_table ht hts
  have hdistinct := (hasDistinctKeys_obj.mp hdoc.distinct).2 _ (Fields.mem_of_get? ht₀)
  have hold : ∀ ds : Fields, t₀ = .obj ds → ∀ f ∈ ds, Checked f.2 := by
    rintro ds rfl ⟨name, v⟩ hf
    obtain ⟨i, hi⟩ := List.mem_iff_getElem?.mp hf
    simp only [definitionTables, List.map_cons, List.map_nil, List.mem_cons, List.not_mem_nil, or_false] at htable
    rcases htable with rfl | rfl
    · exact hdoc.holds (.definition ht₀ hi)
    · exact hdoc.holds (.oldDefinition ht₀ hi)
  cases hkeeps with
  | same => exact ⟨hdistinct, hold⟩
  | @definitions ds ds' h =>
    have hall : ∀ f ∈ ds', Checked f.2 := by
      rintro ⟨name, w⟩ hf
      obtain ⟨v, hv, hkeeps⟩ := h.exists_of_mem hf
      exact hkeeps.checked hdoc (hold ds rfl _ hv)
    have hkeys : (ds'.map (·.1)).Nodup := h.keys ▸ (hasDistinctKeys_obj.mp hdistinct).1
    refine ⟨hasDistinctKeys_obj.mpr ⟨hkeys, fun f hf => (hall f hf).distinct⟩, ?_⟩
    rintro _ ⟨⟩
    exact hall

theorem alike_merge (hdoc : Checked (.obj document)) : Alike gs (gs.merge ts) := by
  intro key hkey
  have htable : key ∉ definitionTables.map (·.2) := by
    intro h
    have hmem : ∀ key ∈ definitionTables.map (·.2), key ∈ annotations := by decide
    exact hkey (hmem key h)
  rw [Fields.get?_merge (keys_nodup ht hdoc), get?_of_notMem ht htable]
  rfl

/-- The expanded document has passed the walk. -/
theorem checked_merge (hdoc : Checked (.obj document)) (hgs : Checked (.obj gs)) : Checked (.obj (gs.merge ts)) := by
  obtain ⟨hown, hchecked⟩ := checkSchema_obj_eq_ok_iff.mp hgs.checked
  obtain ⟨hkeys, hfields⟩ := hasDistinctKeys_obj.mp hgs.distinct
  have hmix : (gs.merge ts).Mixes ts gs := Fields.mixes_merge (keys_nodup ht hdoc)
  refine ⟨checkSchema_obj_eq_ok_iff.mpr ⟨?_, fun w hw => ?_⟩,
    hasDistinctKeys_obj.mpr ⟨Fields.nodup_merge hkeys, fun f hf => ?_⟩⟩
  · refine (checkOwn_congr fun key hkey => (alike_merge ht hdoc key ?_).symm).trans hown
    revert key
    decide
  · obtain ⟨l, hl⟩ := mem_subschemas_iff.mp hw
    rcases hl.of_mixes hmix with hl | hl
    · cases hl with
      | property h | items h | part h => cases (get?_of_notMem ht (by decide)).symm.trans h
      | definition h hi => exact ((checked_of_table ht hdoc h).2 _ rfl _ (List.mem_of_getElem? hi)).checked
      | oldDefinition h hi => exact ((checked_of_table ht hdoc h).2 _ rfl _ (List.mem_of_getElem? hi)).checked
    · exact hchecked w (mem_subschemas_iff.mpr ⟨l, hl⟩)
  · rcases Fields.mem_merge hf with hf | hf
    · exact (checked_of_table ht hdoc (Fields.get?_of_mem (keys_nodup ht hdoc) hf)).1
    · exact hfields f hf

/-- A reference leads in the expanded document to the definition that it leads to in the document, or to its expansion. -/
theorem resolve_merge (hdoc : Checked (.obj document)) (hne : r ≠ rootReference) (h : resolve document r = .ok v) :
    ∃ w, resolve (gs.merge ts) r = .ok w ∧ KeepsDefinition document v w := by
  unfold resolve at h ⊢
  rw [if_neg hne] at h ⊢
  split at h
  · next table name hfind =>
    split at h
    · next v' hv =>
      cases h
      have htable : table ∈ definitionTables.map (·.2) := by
        obtain ⟨t, ht, htable⟩ := List.exists_of_findSome?_eq_some hfind
        obtain ⟨_, -, he⟩ := Option.map_eq_some_iff.mp htable
        cases he
        exact List.mem_map_of_mem ht
      obtain ⟨ds, hds, -⟩ := Fields.mem_fieldsAt_iff.mp (Fields.mem_of_get? hv)
      rw [Fields.fieldsAt_of_obj hds] at hv
      have hold : (tables document).get? table = some (.obj ds) := by
        rw [get?_tables, if_pos htable, hds]
      obtain ⟨t, hts, hkeeps⟩ := ht.exists_get? hold
      have hmerge : (gs.merge ts).get? table = some t := by
        rw [Fields.get?_merge (keys_nodup ht hdoc), hts]
        rfl
      cases hkeeps with
      | same =>
        rw [Fields.fieldsAt_of_obj hmerge, hv]
        exact ⟨v, rfl, .same⟩
      | definitions hkeeps =>
        obtain ⟨w, hw, h⟩ := hkeeps.exists_get? hv
        rw [Fields.fieldsAt_of_obj hmerge, hw]
        exact ⟨w, rfl, h⟩
    · cases h
  · cases h

/-- From a reference whose chains end in the document, all that is met ends in the expanded document too. -/
theorem grounded_merge (hdoc : Checked (.obj document)) (hroot : Grounded (referencesAt document) rootReference)
    (hg : Grounded (referencesAt document) r) (hr : TransGen (Edge (referencesAt document)) rootReference r) :
    ∀ q, ReflTransGen (Edge (referencesAt document)) r q → Grounded (referencesAt (gs.merge ts)) q := by
  induction hg with
  | @intro r ws hws _ ih =>
    intro q hq
    rcases hq.cases_head with rfl | ⟨r', hr', hq⟩
    · have hne : r ≠ rootReference := fun he => hroot.not_cyclic (he ▸ hr)
      obtain ⟨v, hv⟩ : ∃ v, resolve document r = .ok v := by
        cases hv : resolve document r with
        | ok v => exact ⟨v, rfl⟩
        | error e =>
          unfold referencesAt at hws
          rw [hv] at hws
          cases hws
      obtain ⟨w, hw, hkeeps⟩ := resolve_merge ht hdoc hne hv
      refine (grounded_iff hw).mpr fun p hp => ?_
      obtain ⟨r', hr', hpath⟩ := hkeeps.references hp
      have hedge : Edge (referencesAt document) r r' := edge_iff.mpr ⟨v, hv, hr'⟩
      exact ih r' (hedge.mem hws) (hr.tail hedge) p hpath
    · exact ih r' (hr'.mem hws) (hr.tail hr') q hq

theorem findCycle_merge (hdoc : Checked (.obj document)) (hx : Expands document document gs)
    (hcycle : findCycle document = .ok none) : findCycle (gs.merge ts) = .ok none := by
  have hroot := findCycle_eq_none_iff.mp hcycle
  refine findCycle_eq_none_iff.mpr ((grounded_iff (if_pos rfl)).mpr fun p hp => ?_)
  obtain ⟨r, hr, hpath⟩ := hx.references ((alike_merge ht hdoc).references hp)
  have hedge : Edge (referencesAt document) rootReference r := edge_iff.mpr ⟨_, if_pos rfl, hr⟩
  exact grounded_merge ht hdoc hroot (hroot.edge hedge) (.single hedge) p hpath

end

theorem exists_isExpansion (hdoc : Checked (.obj document)) (hparts : PartsStandAlone document)
    (hr : Reads document document none false s) : ∃ e, IsExpansion document e := by
  obtain ⟨gs, hx⟩ := hr.exists_expands hdoc hparts .document hdoc .refl
  exact ⟨_, .intro hx (.refl fun _ => .same)⟩

/-- A document that is read as a shape has an expansion, as long as its definitions list nothing and its parts stand alone; and
each expansion that is well-formed is read as a shape with the same grammar, or the same error, under all settings. -/
theorem expansion_transparent (hkeys : (Json.obj document).hasDistinctKeys = true)
    (hread : (readDocument (.obj document)).outcome.1 = .ok s) (hlisted : DefinitionsListNothing document)
    (hparts : PartsStandAlone document) : (∃ e, IsExpansion document e) ∧
      ∀ e, IsExpansion document e → isDocument e = true → ∃ s', (readDocument (.obj e)).outcome.1 = .ok s' ∧
        ∀ settings, s'.grammar settings = s.grammar settings := by
  obtain ⟨hvalid, hcycle, hr⟩ := (readDocument_eq_ok_iff hkeys).mp hread
  have hdoc : Checked (.obj document) := by
    unfold validate at hvalid
    dsimp only at hvalid
    split at hvalid
    · exact ⟨hvalid, hkeys⟩
    · cases hvalid
  refine ⟨exists_isExpansion hdoc hparts hr, ?_⟩
  rintro _ ⟨hx, ht⟩ hwell
  have hchecked := checked_merge ht hdoc (hx.checked hdoc hdoc)
  obtain ⟨s', hr', hu⟩ := hx.exists_reads hdoc hlisted hparts hdoc .refl .document (by simp) hr (alike_merge ht hdoc)
  refine ⟨s', (readDocument_eq_ok_iff hchecked.distinct).mpr ⟨?_, findCycle_merge ht hdoc hx hcycle, hr'⟩, fun settings =>
    grammar_eq_of_unnamed hu⟩
  exact (if_pos hwell).trans hchecked.checked

def nameSchema : Fields := [("type", .str "string"), ("maxLength", .int 8)]

/-- A reference with a description, as it is written where a reference must stand alone. -/
def wrappedReference : Fields := [("allOf", .arr [.obj [("$ref", .str "#/$defs/Name")]]), ("description", .str "Full name")]

def wrappedDocument : Fields :=
  [("properties", .obj [("name", .obj wrappedReference)]), ("$defs", .obj [("Name", .obj nameSchema)])]

def wrappedShape : Shape := .object "object" [⟨"name", .string { maxLength := some 8 }, some "Full name"⟩]

def unwrappedDocument : Fields :=
  [("properties", .obj [("name", .obj [("allOf", .arr [.obj nameSchema]), ("description", .str "Full name")])]),
    ("$defs", .obj [("Name", .obj nameSchema)])]

theorem called_wrappedDocument (h : Called wrappedDocument v) : v = .obj wrappedDocument ∨ v = .obj wrappedReference ∨
    v = .obj (mergePart wrappedReference [("$ref", .str "#/$defs/Name")]) ∨ v = .obj nameSchema := by
  have hdocument : Settled wrappedDocument "object" := ⟨rfl, rfl, rfl⟩
  have hname : Settled nameSchema "string" := ⟨rfl, rfl, rfl⟩
  induction h with
  | document => exact .inl rfl
  | next _ hc ih =>
    rcases ih with he | he | he | he
    · cases he
      cases hc with
      | definition hr => cases hr
      | part _ ha => cases ha
      | property _ hmem =>
        cases List.mem_singleton.mp hmem
        exact .inr (.inl rfl)
      | items hs => exact absurd (hs.type_eq hdocument) (by decide)
    · cases he
      cases hc with
      | definition hr => cases hr
      | part _ ha =>
        cases ha
        exact .inr (.inr (.inl rfl))
      | property hs | items hs => cases hs.parts
    · cases he
      cases hc with
      | definition hr ht =>
        cases hr
        cases ht
        exact .inr (.inr (.inr rfl))
      | part hr => cases hr
      | property hs | items hs => cases hs.reference
    · cases he
      cases hc with
      | definition hr => cases hr
      | part _ ha => cases ha
      | property hs | items hs => exact absurd (hs.type_eq hname) (by decide)

theorem eq_of_referenced_wrappedDocument (h : Referenced wrappedDocument fs) : fs = nameSchema := by
  induction h with
  | definition h hr ht =>
    rcases called_wrappedDocument h with he | he | he | he
    · cases he
      cases hr
    · cases he
      cases hr
    · cases he
      cases hr
      cases ht
      rfl
    · cases he
      cases hr
  | part _ _ ha ih =>
    cases ih
    cases ha

theorem expansion_transparent_wrapped :
    (Json.obj wrappedDocument).hasDistinctKeys = true ∧ (readDocument (.obj wrappedDocument)).outcome.1 = .ok wrappedShape ∧
    DefinitionsListNothing wrappedDocument ∧ PartsStandAlone wrappedDocument ∧
    IsExpansion wrappedDocument unwrappedDocument ∧ isDocument unwrappedDocument = true ∧
    ∃ s', (readDocument (.obj unwrappedDocument)).outcome.1 = .ok s' ∧
      ∀ settings, s'.grammar settings = wrappedShape.grammar settings := by
  have hkeys : (Json.obj wrappedDocument).hasDistinctKeys = true := by cbv
  have hread : (readDocument (.obj wrappedDocument)).outcome.1 = .ok wrappedShape := by cbv
  have hlisted : DefinitionsListNothing wrappedDocument := by
    intro fs h
    cases eq_of_referenced_wrappedDocument h
    exact ⟨rfl, rfl⟩
  have hparts : PartsStandAlone wrappedDocument := by
    intro fs h ha key hkey
    rcases called_wrappedDocument h with he | he | he | he
    · cases he
      exact absurd rfl ha
    · cases he
      have hmem : ∀ key ∈ wrappedReference.map (·.1), key ∈ "allOf" :: annotations := by decide
      exact Fields.get?_eq_none_iff.mpr fun h => hkey (hmem key h)
    · cases he
      exact absurd rfl ha
    · cases he
      exact absurd rfl ha
  have hname : Expands wrappedDocument nameSchema nameSchema := .plain ⟨rfl, rfl, rfl⟩ (by decide) (by simp)
  have hreference : Expands wrappedDocument [("$ref", .str "#/$defs/Name")] nameSchema := .definition rfl rfl hname
  have hbody : Expands wrappedDocument wrappedDocument
      (wrappedDocument.set "properties" (.obj [("name", .obj (wrappedReference.set "allOf" (.arr [.obj nameSchema])))])) :=
    .object ⟨rfl, rfl, rfl⟩ rfl (.cons (.part rfl rfl hreference) .nil)
  have hx : IsExpansion wrappedDocument unwrappedDocument := .intro hbody (.refl fun _ => .same)
  have hwell : isDocument unwrappedDocument = true := by cbv
  exact ⟨hkeys, hread, hlisted, hparts, hx, hwell, (expansion_transparent hkeys hread hlisted hparts).2 _ hx hwell⟩

end RecordGrammar.JsonSchema
