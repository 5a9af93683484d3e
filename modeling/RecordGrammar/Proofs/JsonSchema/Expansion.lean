import RecordGrammar.Proofs.JsonSchema.Safety

/-!
# Expansions of schemas

`Expands document fs gs`: the schema `gs` is `fs` with each reference that reading it follows replaced by the definition it leads
to, expanded in turn. An expansion passes the walk as the schema does (`Expands.checked`), and what it still refers to is met on
chains of references from the schema (`Expands.references`).
-/

namespace RecordGrammar.JsonSchema
open Json Relation RecordGrammar.Cycle

mutual

/-- Each reference that is followed when the schema is read is replaced by the definition it leads to. -/
inductive Expands (document : Fields) : Fields → Fields → Prop
  | definition {fs target gs : Fields} {r : String} (hr : fs.text? "$ref" = some r)
    (ht : resolve document r = .ok (.obj target)) (h : Expands document target gs) : Expands document fs gs
  | part {fs part part' : Fields} (hr : fs.text? "$ref" = none) (ha : fs.get? "allOf" = some (.arr [.obj part]))
    (h : Expands document part part') : Expands document fs (fs.set "allOf" (.arr [.obj part']))
  | array {fs items items' : Fields} (hs : Settled fs "array") (hi : fs.get? "items" = some (.obj items))
    (h : Expands document items items') : Expands document fs (fs.set "items" (.obj items'))
  | object {fs ps ps' : Fields} (hs : Settled fs "object") (hp : fs.get? "properties" = some (.obj ps))
    (h : ExpandsProperties document ps ps') : Expands document fs (fs.set "properties" (.obj ps'))
  | plain {fs : Fields} {type : String} (hs : Settled fs type) (harray : type ≠ "array")
    (hobject : type = "object" → ∀ ps, fs.get? "properties" ≠ some (.obj ps)) : Expands document fs fs

inductive ExpandsProperties (document : Fields) : Fields → Fields → Prop
  | nil : ExpandsProperties document [] []
  | cons {name : String} {fs gs rest rest' : Fields} (h : Expands document fs gs)
    (hrest : ExpandsProperties document rest rest') :
    ExpandsProperties document ((name, .obj fs) :: rest) ((name, .obj gs) :: rest')

end

/-- The fields have the same keys in the same order, and related values. -/
def Aligned (R : Json → Json → Prop) (fs gs : Fields) : Prop := List.Forall₂ (fun f g => f.1 = g.1 ∧ R f.2 g.2) fs gs

/-- The keywords that say nothing of the values of a schema. -/
def annotations : List String := ["title", "description", "$defs", "definitions"]

/-- The schemas agree on all keywords but annotations. -/
def Alike (fs gs : Fields) : Prop := ∀ key ∉ annotations, fs.get? key = gs.get? key

/-- A schema that is read and holds a part holds nothing else but annotations. -/
def PartsStandAlone (document : Fields) : Prop :=
  ∀ fs : Fields, Called document (.obj fs) → fs.get? "allOf" ≠ none →
    ∀ key ∉ "allOf" :: annotations, fs.get? key = none

variable {document fs gs ps ps' part : Fields} {v w : Json} {r key type : String}

/-! ### Fields with the same keys -/

namespace Aligned
variable {R : Json → Json → Prop}

theorem refl (hR : ∀ v, R v v) : Aligned R fs fs := List.forall₂_same.mpr fun f _ => ⟨rfl, hR f.2⟩

theorem keys (h : Aligned R fs gs) : fs.map (·.1) = gs.map (·.1) := by
  induction h with
  | nil => rfl
  | cons h _ ih => rw [List.map_cons, List.map_cons, h.1, ih]

theorem flip (h : Aligned R fs gs) : Aligned (fun w v => R v w) gs fs :=
  List.Forall₂.flip (h.imp fun _ _ h => ⟨h.1.symm, h.2⟩)

theorem exists_get? (h : Aligned R fs gs) (hv : fs.get? key = some v) : ∃ w, gs.get? key = some w ∧ R v w := by
  induction h with
  | nil => cases hv
  | @cons f g fs gs h _ ih =>
    obtain ⟨k, v'⟩ := f
    obtain ⟨l, w⟩ := g
    obtain ⟨rfl, h⟩ := h
    rw [Fields.get?_cons] at hv ⊢
    split at hv
    · next he =>
      cases hv
      exact ⟨w, if_pos he, h⟩
    · next he =>
      rw [if_neg he]
      exact ih hv

theorem exists_of_get? (h : Aligned R fs gs) (hw : gs.get? key = some w) : ∃ v, fs.get? key = some v ∧ R v w :=
  h.flip.exists_get? hw

theorem exists_of_mem (h : Aligned R fs gs) (hmem : (key, w) ∈ gs) : ∃ v, (key, v) ∈ fs ∧ R v w := by
  induction h with
  | nil => cases hmem
  | @cons f g _ _ h _ ih =>
    rcases List.mem_cons.mp hmem with rfl | hmem
    · exact ⟨f.2, List.mem_cons.mpr (.inl (Prod.ext h.1.symm rfl)), h.2⟩
    · obtain ⟨v, hv, h⟩ := ih hmem
      exact ⟨v, List.mem_cons_of_mem _ hv, h⟩

end Aligned

/-! ### Induction over expansions -/

/-- The values are schemas in the relation. -/
inductive OnSchemas (P : Fields → Fields → Prop) : Json → Json → Prop
  | intro {fs gs : Fields} (h : P fs gs) : OnSchemas P (.obj fs) (.obj gs)

/-- Induction over an expansion, with one hypothesis for all properties of an object. -/
theorem Expands.induct {P : (fs gs : Fields) → Expands document fs gs → Prop}
    (definition : ∀ {fs target gs : Fields} {r : String} (hr : fs.text? "$ref" = some r)
      (ht : resolve document r = .ok (.obj target)) (h : Expands document target gs), P target gs h →
      P fs gs (.definition hr ht h))
    (part : ∀ {fs part part' : Fields} (hr : fs.text? "$ref" = none) (ha : fs.get? "allOf" = some (.arr [.obj part]))
      (h : Expands document part part'), P part part' h → P fs (fs.set "allOf" (.arr [.obj part'])) (.part hr ha h))
    (array : ∀ {fs items items' : Fields} (hs : Settled fs "array") (hi : fs.get? "items" = some (.obj items))
      (h : Expands document items items'), P items items' h → P fs (fs.set "items" (.obj items')) (.array hs hi h))
    (object : ∀ {fs ps ps' : Fields} (hs : Settled fs "object") (hp : fs.get? "properties" = some (.obj ps))
      (h : ExpandsProperties document ps ps'), Aligned (OnSchemas fun fs gs => ∃ h, P fs gs h) ps ps' →
      P fs (fs.set "properties" (.obj ps')) (.object hs hp h))
    (plain : ∀ {fs : Fields} {type : String} (hs : Settled fs type) (harray : type ≠ "array")
      (hobject : type = "object" → ∀ ps, fs.get? "properties" ≠ some (.obj ps)), P fs fs (.plain hs harray hobject))
    {fs gs : Fields} (hx : Expands document fs gs) : P fs gs hx :=
  @Expands.rec document P (fun ps ps' _ => Aligned (OnSchemas fun fs gs => ∃ h, P fs gs h) ps ps') definition part array object
    plain .nil (fun h _ ih ihrest => .cons ⟨rfl, .intro ⟨h, ih⟩⟩ ihrest) fs gs hx

/-! ### Schemas that agree -/

namespace Alike

theorem refl : Alike fs fs := fun _ _ => rfl

theorem symm (h : Alike fs gs) : Alike gs fs := fun key hkey => (h key hkey).symm

theorem text? (h : Alike fs gs) (hkey : key ∉ annotations) : gs.text? key = fs.text? key := by
  unfold Fields.text?
  rw [h key hkey]

theorem has (h : Alike fs gs) (hkey : key ∉ annotations) : gs.has key = fs.has key := by
  unfold Fields.has
  rw [h key hkey]

theorem references (h : Alike fs gs) : JsonSchema.references (.obj gs) ⊆ JsonSchema.references (.obj fs) := by
  intro r hr
  have hchildren : children gs = children fs := by
    unfold children Fields.fieldsAt Fields.elementsAt
    rw [h "properties" (by decide), h "items" (by decide), h "allOf" (by decide)]
  rw [mem_references_iff, hchildren, h.text? (by decide)] at hr
  exact mem_references_iff.mpr hr

/-- A schema that holds nothing but its part agrees with it once they are merged. -/
theorem mergePart (hfs : ∀ key ∉ "allOf" :: annotations, fs.get? key = none) (hkeys : (part.map (·.1)).Nodup) :
    Alike part (mergePart fs part) := by
  intro key hkey
  rw [JsonSchema.mergePart, Fields.get?_merge hkeys, Fields.get?_erase]
  split
  · exact (Option.or_none).symm
  · next hne =>
    rw [hfs key (List.mem_cons.not.mpr (not_or.mpr ⟨hne, hkey⟩))]
    exact (Option.or_none).symm

theorem get?_set_self (h : Alike (fs.set key v) gs) (hkey : key ∉ annotations) : gs.get? key = some v := by
  rw [← h key hkey, Fields.get?_set, if_pos rfl]

/-- Setting a keyword leaves the others alone. -/
theorem get?_set_of_notMem {hs : Fields} {k : String} (h : Alike (fs.set k v) gs) (hfs : Alike fs hs)
    (hkey : key ∉ k :: annotations) : gs.get? key = hs.get? key := by
  obtain ⟨hne, hannotation⟩ := not_or.mp (List.mem_cons.not.mp hkey)
  rw [← h key hannotation, Fields.get?_set, if_neg hne, hfs key hannotation]

end Alike

theorem typeOf_of_has {t : Json} (htype : gs.get? "type" = fs.get? "type")
    (hhas : ∀ key ∈ ["properties", "items", "enum", "const"], gs.has key = fs.has key) (h : typeOf fs = .ok t) :
    typeOf gs = .ok t := by
  unfold typeOf at h ⊢
  rw [htype, hhas "properties" (by decide), hhas "items" (by decide), hhas "enum" (by decide), hhas "const" (by decide)]
  -- both sides go through the same cases, and the last one fails
  repeat' split at h
  all_goals cases h
  all_goals simp_all

namespace Settled

theorem alike (hs : Settled fs type) (h : Alike fs gs) : Settled gs type where
  reference := (h.text? (by decide)).trans hs.reference
  parts := (h "allOf" (by decide)).symm.trans hs.parts
  type := by
    refine typeOf_of_has (h "type" (by decide)).symm (fun key hkey => h.has ?_) hs.type
    revert key
    decide

/-- The type of a schema stays if a keyword that it has gets another value. -/
theorem set (hs : Settled fs type) (hkey : fs.has key = true) (hne : key ∉ ["$ref", "allOf", "type"]) :
    Settled (fs.set key v) type := by
  have hget : ∀ k ∈ ["$ref", "allOf", "type"], (fs.set key v).get? k = fs.get? k := by
    intro k hk
    rw [Fields.get?_set, if_neg fun he : k = key => hne (he ▸ hk)]
  refine ⟨?_, (hget "allOf" (by decide)).trans hs.parts, typeOf_of_has (hget "type" (by decide)) (fun k _ => ?_) hs.type⟩
  · unfold Fields.text?
    rw [hget "$ref" (by decide)]
    exact hs.reference
  · unfold Fields.has at hkey ⊢
    rw [Fields.get?_set]
    split
    · next he => rw [he, hkey, Option.isSome_some]
    · rfl

end Settled

/-! ### Validation -/

theorem checkOwn_congr (h : ∀ key ∈ "type" :: unsupportedKeywords, gs.get? key = fs.get? key) : checkOwn gs = checkOwn fs := by
  have hfind : unsupportedKeywords.find? gs.has = unsupportedKeywords.find? fs.has := by
    refine List.find?_congr fun key hkey => ?_
    unfold Fields.has
    rw [h key (List.mem_cons_of_mem _ hkey)]
  unfold checkOwn
  rw [hfind, h "type" List.mem_cons_self]

theorem Checked.set (h : Checked (.obj fs)) (hkey : key ∉ "type" :: unsupportedKeywords) (hv : v.hasDistinctKeys = true)
    (hsub : ∀ w ∈ subschemas [(key, v)], checkSchema w = .ok ()) : Checked (.obj (fs.set key v)) := by
  obtain ⟨hown, hchecked⟩ := checkSchema_obj_eq_ok_iff.mp h.checked
  obtain ⟨hkeys, hfields⟩ := hasDistinctKeys_obj.mp h.distinct
  refine ⟨checkSchema_obj_eq_ok_iff.mpr ⟨?_, fun w hw => ?_⟩,
    hasDistinctKeys_obj.mpr ⟨Fields.nodup_set hkeys, fun f hf => ?_⟩⟩
  · refine (checkOwn_congr fun k hk => ?_).trans hown
    rw [Fields.get?_set, if_neg fun he : k = key => hkey (he ▸ hk)]
  · obtain ⟨l, hl⟩ := mem_subschemas_iff.mp hw
    rcases hl.of_mixes Fields.mixes_set with hl | hl
    · exact hsub w (mem_subschemas_iff.mpr ⟨l, hl⟩)
    · exact hchecked w (mem_subschemas_iff.mpr ⟨l, hl⟩)
  · rcases Fields.mem_set hf with rfl | hf
    · exact hv
    · exact hfields f hf

theorem subschemas_properties : subschemas [("properties", .obj ps)] = ps.map (·.2) := by
  simp [subschemas, children, Fields.fieldsAt, Fields.elementsAt, Fields.get?_cons, Fields.get?_nil, obj?]

theorem children_properties : children [("properties", .obj ps)] = ps.map (·.2) := by
  simp [children, Fields.fieldsAt, Fields.elementsAt, Fields.get?_cons, Fields.get?_nil, obj?]

theorem Expands.checked (hx : Expands document fs gs) (hdoc : Checked (.obj document)) (hfs : Checked (.obj fs)) :
    Checked (.obj gs) := by
  induction hx using Expands.induct with
  | definition _ ht _ ih => exact ih (hdoc.resolve ht)
  | part _ ha _ ih =>
    have hpart := ih (hfs.holds (.part ha (i := 0) rfl))
    refine hfs.set (by decide) (hasDistinctKeys_arr.mpr ?_) fun w hw => ?_
    · exact List.forall_mem_singleton.mpr hpart.distinct
    · cases List.mem_singleton.mp hw
      exact hpart.checked
  | array _ hi _ ih =>
    have hitems := ih (hfs.holds (.items hi))
    refine hfs.set (by decide) hitems.distinct fun w hw => ?_
    cases List.mem_singleton.mp hw
    exact hitems.checked
  | @object fs ps ps' _ hp _ ih =>
    obtain ⟨hkeys, -⟩ := hasDistinctKeys_obj.mp ((hasDistinctKeys_obj.mp hfs.distinct).2 _ (Fields.mem_of_get? hp))
    have hall : ∀ f ∈ ps', Checked f.2 := by
      rintro ⟨name, w⟩ hf
      obtain ⟨v, hv, ⟨h, ih⟩⟩ := ih.exists_of_mem hf
      obtain ⟨i, hi⟩ := List.mem_iff_getElem?.mp hv
      exact ih (hfs.holds (.property hp hi))
    refine hfs.set (by decide) (hasDistinctKeys_obj.mpr ⟨ih.keys ▸ hkeys, fun f hf => (hall f hf).distinct⟩) fun w hw => ?_
    rw [subschemas_properties] at hw
    obtain ⟨f, hf, rfl⟩ := List.mem_map.mp hw
    exact (hall f hf).checked
  | plain => exact hfs

/-! ### Chains of references -/

theorem references_of_set (hkey : key ≠ "$ref") (hr : r ∈ references (.obj (fs.set key v))) :
    r ∈ references (.obj fs) ∨ ∃ w ∈ children [(key, v)], r ∈ references w := by
  rcases references_of_mixes Fields.mixes_set hr with hr | hr
  · refine .inr ((mem_references_iff.mp hr).resolve_left ?_)
    have hnone : Fields.text? [(key, v)] "$ref" = none := by
      rw [Fields.text?_of_none]
      rw [Fields.get?_cons, if_neg hkey.symm, Fields.get?_nil]
    rw [hnone]
    exact Option.some_ne_none _ ∘ Eq.symm
  · exact .inl hr

/-- The references that an expansion still holds are at the end of chains of references from the schema. -/
theorem Expands.references (hx : Expands document fs gs) (hr : r ∈ references (.obj gs)) :
    ∃ q ∈ JsonSchema.references (.obj fs), ReflTransGen (Edge (referencesAt document)) q r := by
  have hchild : ∀ {fs child : Fields}, .obj child ∈ children fs →
      (∃ q ∈ JsonSchema.references (.obj child), ReflTransGen (Edge (referencesAt document)) q r) →
      ∃ q ∈ JsonSchema.references (.obj fs), ReflTransGen (Edge (referencesAt document)) q r := by
    rintro fs child hc ⟨q, hq, hpath⟩
    exact ⟨q, references_subset_of_mem_children hc hq, hpath⟩
  induction hx using Expands.induct with
  | definition hq ht _ ih =>
    obtain ⟨q', hq', hpath⟩ := ih hr
    exact ⟨_, mem_references_iff.mpr (.inl hq), hpath.head (edge_iff.mpr ⟨_, ht, hq'⟩)⟩
  | part _ ha _ ih =>
    rcases references_of_set (by decide) hr with hr | ⟨w, hw, hr⟩
    · exact ⟨r, hr, .refl⟩
    · cases List.mem_singleton.mp hw
      exact hchild (mem_children_iff.mpr (.inr (.inr ⟨_, ha, List.mem_singleton_self _⟩))) (ih hr)
  | array _ hi _ ih =>
    rcases references_of_set (by decide) hr with hr | ⟨w, hw, hr⟩
    · exact ⟨r, hr, .refl⟩
    · cases List.mem_singleton.mp hw
      exact hchild (mem_children_iff.mpr (.inr (.inl ⟨_, hi, rfl⟩))) (ih hr)
  | object _ hp _ ih =>
    rcases references_of_set (by decide) hr with hr | ⟨w, hw, hr⟩
    · exact ⟨r, hr, .refl⟩
    · rw [children_properties] at hw
      obtain ⟨⟨name, w⟩, hf, rfl⟩ := List.mem_map.mp hw
      obtain ⟨v, hv, ⟨h, ih⟩⟩ := ih.exists_of_mem hf
      exact hchild (mem_children_iff.mpr (.inl ⟨_, hp, _, hv⟩)) (ih hr)
  | plain => exact ⟨r, hr, .refl⟩

/-! ### Existence -/

mutual

/-- What is read has an expansion. -/
theorem Reads.exists_expands (hdoc : Checked (.obj document)) (hparts : PartsStandAlone document) :
    ∀ {fs₀ : Fields} {hint : Option String} {d : Bool} {s : Shape}, Reads document fs₀ hint d s → Called document (.obj fs₀) →
      ∀ {fs : Fields}, Checked (.obj fs) → Alike fs fs₀ → ∃ gs, Expands document fs gs
  | _, _, _, _, .definition hq ht h, hcalled, fs, _, ha => by
    obtain ⟨gs, hx⟩ := h.exists_expands hdoc hparts (.next hcalled (.definition hq ht)) (hdoc.resolve ht) .refl
    exact ⟨gs, .definition ((ha.text? (by decide)).symm.trans hq) ht hx⟩
  | fs₀, _, _, _, .part hq hp h, hcalled, fs, hfs, ha => by
    have hp' := (ha "allOf" (by decide)).trans hp
    have hpart := hfs.holds (.part hp' (i := 0) rfl)
    have halike := Alike.mergePart (hparts fs₀ hcalled (by simp [hp])) (hasDistinctKeys_obj.mp hpart.distinct).1
    obtain ⟨part', hx⟩ := h.exists_expands hdoc hparts (.next hcalled (.part hq hp)) hpart halike
    exact ⟨_, .part ((ha.text? (by decide)).symm.trans hq) hp' hx⟩
  | _, _, _, _, .array hs hi h _ _, hcalled, fs, hfs, ha => by
    have hi' := (ha "items" (by decide)).trans hi
    obtain ⟨items', hx⟩ := h.exists_expands hdoc hparts (.next hcalled (.items hs hi)) (hfs.holds (.items hi')) .refl
    exact ⟨_, .array (hs.alike ha.symm) hi' hx⟩
  | fs₀, _, _, _, .object hs h, hcalled, fs, hfs, ha => by
    have hs' := hs.alike ha.symm
    by_cases hp : ∃ ps, fs.get? "properties" = some (.obj ps)
    · obtain ⟨ps, hp⟩ := hp
      have hat := Fields.fieldsAt_of_obj ((ha "properties" (by decide)).symm.trans hp)
      obtain ⟨ps', hx⟩ := h.exists_expands hdoc hparts fun name gs hmem => by
        obtain ⟨i, hi⟩ := List.mem_iff_getElem?.mp (hat ▸ hmem)
        exact ⟨.next hcalled (.property hs hmem), hfs.holds (.property hp hi)⟩
      exact ⟨_, .object hs' hp (hat ▸ hx)⟩
    · exact ⟨fs, .plain hs' (by decide) fun _ ps h => hp ⟨ps, h⟩⟩
  | _, _, _, _, .string hs _, _, fs, _, ha => ⟨fs, .plain (hs.alike ha.symm) (by decide) (by simp)⟩
  | _, _, _, _, .integer hs _ _, _, fs, _, ha => ⟨fs, .plain (hs.alike ha.symm) (by decide) (by simp)⟩
  | _, _, _, _, .number hs _ _, _, fs, _, ha => ⟨fs, .plain (hs.alike ha.symm) (by decide) (by simp)⟩
  | _, _, _, _, .boolean hs, _, fs, _, ha => ⟨fs, .plain (hs.alike ha.symm) (by decide) (by simp)⟩

theorem ReadsFields.exists_expands (hdoc : Checked (.obj document)) (hparts : PartsStandAlone document) :
    ∀ {ps : Fields} {fields : List (Field Shape)}, ReadsFields document ps fields →
      (∀ name fs, (name, .obj fs) ∈ ps → Called document (.obj fs) ∧ Checked (.obj fs)) →
      ∃ ps', ExpandsProperties document ps ps'
  | _, _, .nil, _ => ⟨[], .nil⟩
  | _, _, .cons h hrest, hall => by
    obtain ⟨hcalled, hfs⟩ := hall _ _ List.mem_cons_self
    obtain ⟨gs, hx⟩ := h.exists_expands hdoc hparts hcalled hfs .refl
    obtain ⟨ps', hxs⟩ := hrest.exists_expands hdoc hparts fun name fs hmem => hall name fs (List.mem_cons_of_mem _ hmem)
    exact ⟨_, .cons hx hxs⟩

end

end RecordGrammar.JsonSchema
