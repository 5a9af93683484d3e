import RecordGrammar.Proofs.JsonSchema.Descent
import RecordGrammar.Proofs.JsonSchema.Walk

/-!
# Validated documents are read safely

The reader takes for granted what its keywords hold (`Readable`). `reading_safe`: once a document of one of the latest dialects
has passed validation, this holds of every schema in it, and of every schema that reading comes to, mergers included; so reading
gives a shape or refuses the document for one of the reasons in `Refusal`. A schema that is no object, a type without support
and a bound that is no natural number are not among them.
-/

namespace RecordGrammar.JsonSchema
open Json Reporting

/-- What the reader takes for granted of a schema. -/
structure Readable (fs : Fields) : Prop where
  reference : ∀ v, fs.get? "$ref" = some v → ∃ r, v = .str r
  parts : ∀ v, fs.get? "allOf" = some v → ∃ parts : List Fields, v = .arr (parts.map .obj)
  properties : ∀ v, fs.get? "properties" = some v → ∃ ps : Fields, v = .obj ps ∧ ∀ f ∈ ps, ∃ gs, f.2 = .obj gs
  type : ∀ v, fs.get? "type" = some v → ∃ name ∈ supportedTypes, v = .str name
  values : ∀ v, fs.get? "enum" = some v → ∃ vs, v = .arr vs
  texts : ∀ key ∈ ["title", "description", "format"], ∀ v, fs.get? key = some v → ∃ s, v = .str s
  bounds : ∀ k ∈ boundKeywords, ∃ b, boundOfJson k.2 ((fs.get? k.1).getD .null) = .ok b

/-- Why a document that has passed validation may give no shape. -/
inductive Refusal : SchemaError → Prop
  | unresolvable {reference : String} : Refusal (.unresolvable reference)
  | cyclic {names : List String} : Refusal (.cyclic names)
  | severalParts : Refusal .severalParts
  | untyped {schema : Json} : Refusal (.untyped schema)
  | noElementSchema : Refusal .noElementSchema
  | enumNotTexts {values : List Json} : Refusal (.enumNotTexts values)
  | enumNotOnString {schema : Json} : Refusal (.enumNotOnString schema)

/-- A schema that has passed the walk, with distinct keys. -/
structure Checked (v : Json) : Prop where
  checked : checkSchema v = .ok ()
  distinct : v.hasDistinctKeys = true

/-- What validation establishes of a value that is read as a schema. -/
structure Sound (d : Dialect) (v : Json) : Prop extends Checked v where
  wellFormed : isWellFormed d v = true

variable {d : Dialect} {document fs part : Fields} {v w : Json} {l : Holder × Nat} {r key label : String} {e : SchemaError}

namespace Dialect.IsLate

theorem demand_bounds (hd : d.IsLate) : ∀ k ∈ boundKeywords, d.demands.lookup k.1 = some .count := by
  cases hd <;> decide

theorem demand_texts (hd : d.IsLate) : ∀ key ∈ ["$ref", "title", "description", "format"], d.demands.lookup key = some .text := by
  cases hd <;> decide

theorem demand_enum (hd : d.IsLate) : d.demands.lookup "enum" = some .values := by
  cases hd <;> rfl

end Dialect.IsLate

theorem boundOfJson_of_isCount (h : isCount d v = true) : ∃ b, boundOfJson label v = .ok b := by
  have hint : ∀ {n : Int}, 0 ≤ n → boundOfInt label n = .ok (some n.toNat) := fun hn => if_neg (Int.not_lt.mpr hn)
  cases v with
  | int n => exact ⟨_, hint (of_decide_eq_true h)⟩
  | float x =>
    obtain ⟨-, h⟩ := (Bool.and_eq_true _ _).mp h
    cases hx : Decimal.integer? x with
    | none =>
      rw [hx] at h
      cases h
    | some n =>
      rw [hx] at h
      refine ⟨some n.toNat, ?_⟩
      simp only [boundOfJson, hx]
      exact hint (of_decide_eq_true h)
  | null | bool | str | arr | obj => cases h

/-! ### What validation establishes of a schema -/

theorem Checked.holds (h : Checked (.obj fs)) (hl : Holds fs l v) : Checked v := by
  refine ⟨(checkSchema_obj_eq_ok_iff.mp h.checked).2 v (mem_subschemas_iff.mpr ⟨l, hl⟩), ?_⟩
  have hfields := (hasDistinctKeys_obj.mp h.distinct).2
  have htable : ∀ {key : String} {gs : Fields} {i : Nat} {name : String}, fs.get? key = some (.obj gs) →
      gs[i]? = some (name, v) → v.hasDistinctKeys = true := by
    intro key gs i name hgs hi
    exact (hasDistinctKeys_obj.mp (hfields _ (Fields.mem_of_get? hgs))).2 _ (List.mem_of_getElem? hi)
  cases hl with
  | property hp hi => exact htable hp hi
  | items hi => exact hfields _ (Fields.mem_of_get? hi)
  | part ha hi => exact hasDistinctKeys_arr.mp (hfields _ (Fields.mem_of_get? ha)) v (List.mem_of_getElem? hi)
  | definition ht hi => exact htable ht hi
  | oldDefinition ht hi => exact htable ht hi

/-- What a reference leads to is the document or stands in it. -/
theorem holds_of_resolve (hr : resolve document r = .ok v) : v = .obj document ∨ ∃ l, Holds document l v := by
  refine (resolve_cases hr).imp_right ?_
  rintro ⟨table, htable, name, hv⟩
  obtain ⟨ds, hds, hmem⟩ := Fields.mem_fieldsAt_iff.mp (Fields.mem_of_get? hv)
  obtain ⟨i, hi⟩ := List.mem_iff_getElem?.mp hmem
  simp only [definitionTables, List.map_cons, List.map_nil, List.mem_cons, List.not_mem_nil, or_false] at htable
  rcases htable with rfl | rfl
  · exact ⟨_, .definition hds hi⟩
  · exact ⟨_, .oldDefinition hds hi⟩

theorem Checked.resolve (h : Checked (.obj document)) (hr : JsonSchema.resolve document r = .ok v) : Checked v := by
  rcases holds_of_resolve hr with rfl | ⟨l, hl⟩
  · exact h
  · exact h.holds hl

namespace Sound

theorem supported (h : Sound d v) (hd : d.IsLate) : Supported v :=
  (checkAlone_eq_ok_iff hd h.wellFormed).mp (checkSchema_eq_ok_iff.mp h.checked [] v .here)

theorem holds (h : Sound d (.obj fs)) (hd : d.IsLate) (hl : Holds fs l v) : Sound d v :=
  ⟨h.toChecked.holds hl, hl.isWellFormed hd h.wellFormed⟩

theorem leads {route : Route} (h : Sound d v) (hd : d.IsLate) (hw : Leads v route w) : Sound d w := by
  induction hw with
  | here => exact h
  | step hl _ ih => exact ih (h.holds hd hl)

theorem exists_obj (h : Sound d v) (hd : d.IsLate) : ∃ fs : Fields, v = .obj fs := by
  obtain ⟨fs, he, -⟩ := h.supported hd
  exact ⟨fs, he⟩

/-- A value without schemas in it is as the dialect demands. -/
theorem meetsPlain (h : Sound d (.obj fs)) {demand : Demand} (hdemand : d.demands.lookup key = some demand)
    (hv : fs.get? key = some v) (hplain : demand ∈ [Demand.text, .values, .count]) : JsonSchema.meetsPlain d demand v = true := by
  refine meetsPlain_of_areWellFormed (areWellFormed_of_get? h.wellFormed hv) hdemand ?_
  simp only [List.mem_cons, List.not_mem_nil, or_false] at hplain
  rcases hplain with rfl | rfl | rfl <;> decide

theorem exists_text (h : Sound d (.obj fs)) (hd : d.IsLate) (hkey : key ∈ ["$ref", "title", "description", "format"])
    (hv : fs.get? key = some v) : ∃ s, v = .str s := by
  have hmeets := h.meetsPlain (hd.demand_texts key hkey) hv (by decide)
  cases v with
  | str s => exact ⟨s, rfl⟩
  | null | bool | int | float | arr | obj => cases hmeets

theorem exists_values (h : Sound d (.obj fs)) (hd : d.IsLate) (hv : fs.get? "enum" = some v) : ∃ vs, v = .arr vs := by
  have hmeets := h.meetsPlain hd.demand_enum hv (by decide)
  cases v with
  | arr vs => exact ⟨vs, rfl⟩
  | null | bool | int | float | str | obj => cases hmeets

theorem exists_parts (h : Sound d (.obj fs)) (hd : d.IsLate) (hv : fs.get? "allOf" = some v) :
    ∃ parts : List Fields, v = .arr (parts.map .obj) := by
  obtain ⟨vs, rfl, -⟩ := of_schemas (areWellFormed_of_get? h.wellFormed hv) hd.demand_parts
  have hobj : vs ∈ Set.range (List.map Json.obj) := by
    rw [Set.range_list_map]
    intro w hw
    obtain ⟨i, hi⟩ := List.mem_iff_getElem?.mp hw
    obtain ⟨gs, he⟩ := (h.holds hd (.part hv hi)).exists_obj hd
    exact ⟨gs, he.symm⟩
  obtain ⟨parts, rfl⟩ := hobj
  exact ⟨parts, rfl⟩

theorem exists_properties (h : Sound d (.obj fs)) (hd : d.IsLate) (hv : fs.get? "properties" = some v) :
    ∃ ps : Fields, v = .obj ps ∧ ∀ f ∈ ps, ∃ gs, f.2 = .obj gs := by
  obtain ⟨ps, rfl, -⟩ := of_schemaTable (areWellFormed_of_get? h.wellFormed hv) (hd.demand_tables _ (by decide))
  refine ⟨ps, rfl, fun f hf => ?_⟩
  obtain ⟨i, hi⟩ := List.mem_iff_getElem?.mp hf
  exact (h.holds hd (.property hv hi)).exists_obj hd

theorem exists_bound (h : Sound d (.obj fs)) (hd : d.IsLate) {k : String × String} (hk : k ∈ boundKeywords) :
    ∃ b, boundOfJson k.2 ((fs.get? k.1).getD .null) = .ok b := by
  cases hv : fs.get? k.1 with
  | none => exact ⟨none, rfl⟩
  | some v =>
    have hmeets := h.meetsPlain (hd.demand_bounds k hk) hv (by decide)
    rw [JsonSchema.meetsPlain] at hmeets
    exact boundOfJson_of_isCount hmeets

theorem readable (h : Sound d (.obj fs)) (hd : d.IsLate) : Readable fs where
  reference _ hv := h.exists_text hd (by decide) hv
  parts _ hv := h.exists_parts hd hv
  properties _ hv := h.exists_properties hd hv
  type v hv := by
    obtain ⟨gs, he, -, htype⟩ := h.supported hd
    cases he
    exact htype v hv
  values _ hv := h.exists_values hd hv
  texts _ hkey _ hv := h.exists_text hd (List.mem_cons_of_mem _ hkey) hv
  bounds _ hk := h.exists_bound hd hk

/-- The type that a schema names or shows has support. -/
theorem exists_type (h : Sound d (.obj fs)) (hd : d.IsLate) (ht : typeOf fs = .ok v) : ∃ name ∈ supportedTypes, v = .str name := by
  unfold typeOf at ht
  split at ht
  · repeat' split at ht
    all_goals cases ht
    · exact ⟨"object", by decide, rfl⟩
    · exact ⟨"array", by decide, rfl⟩
    · exact ⟨"string", by decide, rfl⟩
  · repeat' split at ht
    all_goals cases ht
    · exact ⟨"object", by decide, rfl⟩
    · exact ⟨"array", by decide, rfl⟩
    · exact ⟨"string", by decide, rfl⟩
  · next hv =>
    cases ht
    exact (h.readable hd).type v hv

end Sound

/-! ### What reading comes to -/

theorem Supported.of_mixes {gs hs : Fields} (hmix : fs.Mixes gs hs) (h : Supported (.obj gs)) (h' : Supported (.obj hs)) :
    Supported (.obj fs) := by
  obtain ⟨gs, he, hk, htype⟩ := h
  cases he
  obtain ⟨hs, he, hk', htype'⟩ := h'
  cases he
  refine ⟨_, rfl, fun key hkey => ?_, fun t ht => (hmix ht).elim (htype t) (htype' t)⟩
  rw [Option.eq_none_iff_forall_ne_some]
  intro w hw
  rcases hmix hw with hw | hw
  · cases (hk key hkey).symm.trans hw
  · cases (hk' key hkey).symm.trans hw

namespace Sound

/-- The merger with a part is as sound as the schema around it, though validation has not seen it. -/
theorem mergePart (h : Sound d (.obj fs)) (hd : d.IsLate) (ha : fs.get? "allOf" = some (.arr [.obj part])) :
    Sound d (.obj (JsonSchema.mergePart fs part)) := by
  have hpart : Sound d (.obj part) := h.holds hd (.part ha (i := 0) rfl)
  have hmix : (JsonSchema.mergePart fs part).Mixes part fs := mixes_mergePart (hasDistinctKeys_obj.mp hpart.distinct).1
  refine ⟨⟨?_, hasDistinctKeys_mergePart h.distinct hpart.distinct⟩, ?_⟩
  · refine checkSchema_obj_eq_ok_iff.mpr ⟨((hpart.supported hd).of_mixes hmix (h.supported hd)).checkAlone, fun w hw => ?_⟩
    obtain ⟨l, hl⟩ := mem_subschemas_iff.mp hw
    rcases hl.of_mixes hmix with hl | hl
    · exact (hpart.holds hd hl).checked
    · exact (h.holds hd hl).checked
  · refine (isWellFormed_obj_iff hd).mpr fun f hf => ?_
    rcases Fields.mem_merge hf with hf | hf
    · exact (isWellFormed_obj_iff hd).mp hpart.wellFormed f hf
    · exact (isWellFormed_obj_iff hd).mp h.wellFormed f (List.mem_of_mem_filter hf)

theorem resolve (h : Sound d (.obj document)) (hd : d.IsLate) (hr : JsonSchema.resolve document r = .ok v) : Sound d v := by
  rcases holds_of_resolve hr with rfl | ⟨l, hl⟩
  · exact h
  · exact h.holds hd hl

theorem calls (h : Sound d (.obj fs)) (hd : d.IsLate) (hdoc : Sound d (.obj document)) (hc : Calls document fs v) : Sound d v := by
  cases hc with
  | definition _ hr => exact hdoc.resolve hd hr
  | part _ ha => exact h.mergePart hd ha
  | property _ hmem =>
    obtain ⟨ps, hp, hmem⟩ := Fields.mem_fieldsAt_iff.mp hmem
    obtain ⟨i, hi⟩ := List.mem_iff_getElem?.mp hmem
    exact h.holds hd (.property hp hi)
  | items _ hi => exact h.holds hd (.items hi)

theorem called (hdoc : Sound d (.obj document)) (hd : d.IsLate) (hv : Called document v) : Sound d v := by
  induction hv with
  | document => exact hdoc
  | next _ hc ih => exact ih.calls hd hdoc hc

end Sound

/-! ### What reading refuses -/

variable {fresh : List String}

theorem StopsAt.refusal (hs : StopsAt document fresh fs e) (hd : d.IsLate) (hdoc : Sound d (.obj document))
    (h : Sound d (.obj fs)) : Refusal e := by
  cases hs with
  | reference _ he =>
    rw [resolve_error he]
    exact .unresolvable
  | definition hr ht hv =>
    obtain ⟨gs, he⟩ := (h.calls hd hdoc (.definition hr ht)).exists_obj hd
    exact absurd he (hv gs)
  | cyclic => exact .cyclic
  | parts => exact .severalParts
  | untyped he =>
    rw [typeOf_error he]
    exact .untyped
  | property hs hmem hv =>
    obtain ⟨gs, he⟩ := (h.calls hd hdoc (.property hs hmem)).exists_obj hd
    exact absurd he (hv gs)
  | element => exact .noElementSchema
  | bound hk he =>
    obtain ⟨b, hb⟩ := h.exists_bound hd hk
    cases hb.symm.trans he
  | values => exact .enumNotTexts
  | numeric => exact .enumNotOnString
  | type ht hname =>
    obtain ⟨name, hmem, he⟩ := h.exists_type hd ht
    exact absurd he (hname name hmem)

theorem Stops.refusal (hs : Stops document fresh fs e) (hd : d.IsLate) (hdoc : Sound d (.obj document)) (h : Sound d (.obj fs)) :
    Refusal e := by
  induction hs with
  | here hs => exact hs.refusal hd hdoc h
  | definition _ _ ht _ ih => exact ih (hdoc.resolve hd ht)
  | inner _ hc _ ih => exact ih (h.calls hd hdoc hc)

theorem refusal_of_findCycle (h : findCycle document = .error e) : Refusal e := by
  obtain ⟨r, hr⟩ := Cycle.exists_of_find_error h
  cases hv : resolve document r with
  | error e' =>
    rw [hv] at hr
    cases hr
    rw [resolve_error hv]
    exact .unresolvable
  | ok v =>
    rw [hv] at hr
    cases hr

theorem refusal_of_readValid (hd : d.IsLate) (h : Sound d (.obj document)) (he : Raises (readValid document) e) : Refusal e := by
  unfold readValid at he
  split at he
  · next hc =>
    rw [raises_throw_iff.mp he]
    exact refusal_of_findCycle hc
  · rw [raises_throw_iff.mp he]
    exact .cyclic
  · exact (stops_of_raises he).refusal hd h h

/-- Once a document of one of the latest dialects has passed validation, each schema in it and each value that is read as a
schema is an object that holds what the reader takes for granted; and reading it gives a shape or one of the refusals. -/
theorem reading_safe (hkeys : (Json.obj document).hasDistinctKeys = true) (hd : (dialectOf document).IsLate)
    (hvalid : validate (.obj document) = .ok ()) :
    (∀ route w, Leads (.obj document) route w → ∃ fs, w = .obj fs ∧ Readable fs) ∧
    (∀ v, Called document v → ∃ fs, v = .obj fs ∧ Readable fs) ∧
    ((∃ s, (readDocument (.obj document)).outcome.1 = .ok s) ∨
      ∃ e, (readDocument (.obj document)).outcome.1 = .error e ∧ Refusal e) := by
  have hsound : Sound (dialectOf document) (.obj document) := by
    unfold validate at hvalid
    dsimp only at hvalid
    split at hvalid
    · next hdoc => exact ⟨⟨hvalid, hkeys⟩, hdoc⟩
    · cases hvalid
  have hreadable : ∀ {v}, Sound (dialectOf document) v → ∃ fs, v = .obj fs ∧ Readable fs := by
    intro v h
    obtain ⟨fs, rfl⟩ := h.exists_obj hd
    exact ⟨fs, rfl, h.readable hd⟩
  refine ⟨fun route w hw => hreadable (hsound.leads hd hw), fun v hv => hreadable (hsound.called hd hv), ?_⟩
  have hread : readDocument (.obj document) = readValid document := by
    unfold readDocument
    dsimp only
    rw [hvalid]
  rw [hread]
  cases he : (readValid document).outcome.1 with
  | ok s => exact .inl ⟨s, rfl⟩
  | error e => exact .inr ⟨e, rfl, refusal_of_readValid hd hsound (raises_of_outcome he)⟩

/-- The elements of the property are described by a part that is merged into the schema around it. -/
def taggedDocument : Fields :=
  [("properties", .obj
      [("tags", .obj [("maxItems", .int 3), ("allOf", .arr [.obj [("items", .obj [("$ref", .str "#/$defs/Name")])]])])]),
    ("$defs", .obj [("Name", .obj [("type", .str "string"), ("maxLength", .int 8)])])]

theorem reading_safe_tagged :
    (Json.obj taggedDocument).hasDistinctKeys = true ∧ (dialectOf taggedDocument).IsLate ∧
    validate (.obj taggedDocument) = .ok () ∧
    (∀ route w, Leads (.obj taggedDocument) route w → ∃ fs, w = .obj fs ∧ Readable fs) ∧
    (∀ v, Called taggedDocument v → ∃ fs, v = .obj fs ∧ Readable fs) ∧
    ((∃ s, (readDocument (.obj taggedDocument)).outcome.1 = .ok s) ∨
      ∃ e, (readDocument (.obj taggedDocument)).outcome.1 = .error e ∧ Refusal e) := by
  have hkeys : (Json.obj taggedDocument).hasDistinctKeys = true := by cbv
  have hd : (dialectOf taggedDocument).IsLate := .of2020
  have hvalid : validate (.obj taggedDocument) = .ok () := by cbv
  exact ⟨hkeys, hd, hvalid, reading_safe hkeys hd hvalid⟩

end RecordGrammar.JsonSchema
