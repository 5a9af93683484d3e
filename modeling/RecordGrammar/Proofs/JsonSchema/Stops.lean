import RecordGrammar.Proofs.JsonSchema.Run

/-!
# Runs of the reader that fail

`Calls document fs v`: reading the schema `fs` reads the value `v` as a schema next. `StopsAt document fresh fs e`: the schema
`fs` itself cannot be read, for the reason `e`. `stops_of_raises` has all failures of the reader: if it fails, it stops at a
schema that it has come to by such calls.
-/

namespace RecordGrammar.JsonSchema
open Json Reporting

/-- Reading the schema reads the other value as a schema next: what its reference leads to, the merger with its only part, one of
its properties or what describes its elements. -/
inductive Calls (document : Fields) (fs : Fields) : Json → Prop
  | definition {v : Json} {r : String} (hr : fs.text? "$ref" = some r) (h : resolve document r = .ok v) : Calls document fs v
  | part {part : Fields} (hr : fs.text? "$ref" = none) (ha : fs.get? "allOf" = some (.arr [.obj part])) :
    Calls document fs (.obj (mergePart fs part))
  | property {name : String} {v : Json} (hs : Settled fs "object") (h : (name, v) ∈ fs.fieldsAt "properties") :
    Calls document fs v
  | items {gs : Fields} (hs : Settled fs "array") (h : fs.get? "items" = some (.obj gs)) : Calls document fs (.obj gs)

/-- The value is read as a schema when the document is read. -/
inductive Called (document : Fields) : Json → Prop
  | document : Called document (.obj document)
  | next {fs : Fields} {v : Json} (h : Called document (.obj fs)) (hc : Calls document fs v) : Called document v

/-- The keywords that hold bounds, with the names for them in messages. -/
def boundKeywords : List (String × String) :=
  [("minLength", "min_length"), ("maxLength", "max_length"), ("minItems", "min_items"), ("maxItems", "max_items")]

/-- Why a schema cannot be read, apart from the schemas that reading it reads next. -/
inductive StopsAt (document : Fields) (fresh : List String) (fs : Fields) : SchemaError → Prop
  | reference {r : String} {e : SchemaError} (hr : fs.text? "$ref" = some r) (h : resolve document r = .error e) :
    StopsAt document fresh fs e
  | definition {r : String} {v : Json} (hr : fs.text? "$ref" = some r) (h : resolve document r = .ok v)
    (hv : ∀ gs, v ≠ .obj gs) : StopsAt document fresh fs (.notASchema v.kindName)
  | cyclic {r : String} (hr : fs.text? "$ref" = some r) (hfresh : r ∉ fresh) :
    StopsAt document fresh fs (.cyclic [referenceName r])
  | parts {v : Json} (ha : fs.get? "allOf" = some v) : StopsAt document fresh fs .severalParts
  | untyped {e : SchemaError} (h : typeOf fs = .error e) : StopsAt document fresh fs e
  | property {name : String} {v : Json} (hs : Settled fs "object") (h : (name, v) ∈ fs.fieldsAt "properties")
    (hv : ∀ gs, v ≠ .obj gs) : StopsAt document fresh fs (.notASchema v.kindName)
  | element (hs : Settled fs "array") (h : ∀ gs, fs.get? "items" ≠ some (.obj gs)) : StopsAt document fresh fs .noElementSchema
  | bound {keyword label : String} {e : BoundError} (hk : (keyword, label) ∈ boundKeywords)
    (h : boundOfJson label ((fs.get? keyword).getD .null) = .error e) : StopsAt document fresh fs (.bound e)
  | values {vs : List Json} (h : listedValues? fs = some vs) (hv : vs.all (·.str?.isSome) = false) :
    StopsAt document fresh fs (.enumNotTexts vs)
  | numeric (h : fs.has "enum" = true ∨ fs.has "const" = true) : StopsAt document fresh fs (.enumNotOnString (.obj fs))
  | type {t : Json} (h : typeOf fs = .ok t) (ht : ∀ name ∈ supportedTypes, t ≠ .str name) :
    StopsAt document fresh fs (.unreadableType t)

/-- Reading the schema fails at a schema that it comes to. -/
inductive Stops (document : Fields) : List String → Fields → SchemaError → Prop
  | here {fresh : List String} {fs : Fields} {e : SchemaError} (h : StopsAt document fresh fs e) : Stops document fresh fs e
  | definition {fresh : List String} {fs target : Fields} {r : String} {e : SchemaError} (hr : fs.text? "$ref" = some r)
    (hfresh : r ∈ fresh) (ht : resolve document r = .ok (.obj target)) (h : Stops document (fresh.erase r) target e) :
    Stops document fresh fs e
  | inner {fresh : List String} {fs gs : Fields} {e : SchemaError} (hr : fs.text? "$ref" = none)
    (hc : Calls document fs (.obj gs)) (h : Stops document fresh gs e) : Stops document fresh fs e

variable {document fs gs : Fields} {fresh : List String} {hint : Option String} {d : Bool} {e : SchemaError} {v : Json}

/-- What is read next without a reference stands in the schema or is a merger with its only part. -/
theorem Calls.opens (h : Calls document fs (.obj gs)) (hr : fs.text? "$ref" = none) : Opens fs gs := by
  cases h with
  | definition hr' => cases hr.symm.trans hr'
  | part _ ha => exact .part hr ha
  | items hs h => exact .items hr hs.parts h
  | property hs h =>
    obtain ⟨properties, hp, hmem⟩ := Fields.mem_fieldsAt_iff.mp h
    exact .property hr hs.parts hp hmem

/-! ### The reader and the relation -/

theorem stopsAt_of_boundAt {keyword label : String} (hk : (keyword, label) ∈ boundKeywords)
    (h : Raises (boundAt fs keyword label) e) : StopsAt document fresh fs e := by
  unfold boundAt at h
  split at h
  · exact absurd h not_raises_pure
  · next e' he =>
    cases raises_throw_iff.mp h
    exact .bound hk he

theorem stopsAt_of_readString (h : Raises (readString fs hint d) e) : StopsAt document fresh fs e := by
  unfold readString at h
  split at h
  · next vs hvs =>
    split at h
    · split at h
      · exact absurd h not_raises_pure
      · exact absurd h not_raises_pure
    · next htexts =>
      cases raises_throw_iff.mp h
      exact .values hvs (Bool.not_eq_true _ ▸ htexts)
  · split at h
    · exact absurd h not_raises_pure
    · exact absurd h not_raises_pure
    · rcases h.of_bind with h | ⟨_, h⟩
      · exact stopsAt_of_boundAt (by decide) h
      · rcases h.of_bind with h | ⟨_, h⟩
        · exact stopsAt_of_boundAt (by decide) h
        · exact absurd h not_raises_pure

theorem stopsAt_of_readNumeric {kind : Scalar} (h : Raises (readNumeric fs kind) e) : StopsAt document fresh fs e := by
  unfold readNumeric at h
  split at h
  · next hlisted =>
    cases raises_throw_iff.mp h
    exact .numeric (Bool.or_eq_true _ _ ▸ hlisted)
  · exact absurd h not_raises_pure

theorem of_raises_readProperties {properties : Fields} (h : Raises (readProperties document fresh properties) e) :
    (∃ name gs hint d, (name, .obj gs) ∈ properties ∧ Raises (readSchema document fresh gs hint d) e) ∨
      ∃ name v, (name, v) ∈ properties ∧ (∀ gs, v ≠ .obj gs) ∧ e = .notASchema v.kindName := by
  induction properties with
  | nil =>
    rw [readProperties] at h
    exact absurd h not_raises_pure
  | cons f rest ih =>
    obtain ⟨name, v⟩ := f
    cases v with
    | obj gs =>
      rw [readProperties] at h
      rcases h.of_bind with h | ⟨_, h⟩
      · exact .inl ⟨name, gs, _, _, List.mem_cons_self, h⟩
      · rcases h.of_bind with h | ⟨_, h⟩
        · rcases ih h with ⟨name, gs, hint, d, hmem, h⟩ | ⟨name, v, hmem, h⟩
          · exact .inl ⟨name, gs, hint, d, List.mem_cons_of_mem _ hmem, h⟩
          · exact .inr ⟨name, v, List.mem_cons_of_mem _ hmem, h⟩
        · exact absurd h not_raises_pure
    | null | bool | int | float | str | arr =>
      rw [readProperties] at h
      · refine .inr ⟨name, _, List.mem_cons_self, ?_, raises_throw_iff.mp h⟩
        intro gs hv
        cases hv
      · intro gs hv
        cases hv

theorem stops_of_raises (h : Raises (readSchema document fresh fs hint d) e) : Stops document fresh fs e := by
  induction fresh, fs using reading_induction generalizing hint d with
  | step fresh fs ihfollowed ihopened =>
  have hcalls : ∀ gs, fs.text? "$ref" = none → Calls document fs (.obj gs) → ∀ hint d,
      Raises (readSchema document fresh gs hint d) e → Stops document fresh fs e := by
    intro gs hr hc hint d h
    exact .inner hr hc (ihopened gs (hc.opens hr) h)
  cases form fs with
  | reference hr =>
    rw [readSchema_reference hr] at h
    rcases h.of_bind with h | ⟨_, h⟩
    · exact absurd h not_raises_report
    split at h
    · next hfresh =>
      split at h
      · next target ht => exact .definition hr hfresh ht (ihfollowed _ hfresh target h)
      · next v hv ht =>
        cases raises_throw_iff.mp h
        exact .here (.definition hr ht hv)
      · next he =>
        cases raises_throw_iff.mp h
        exact .here (.reference hr he)
    · next hfresh =>
      cases raises_throw_iff.mp h
      exact .here (.cyclic hr hfresh)
  | part hr ha =>
    rw [readSchema_part hr ha] at h
    exact hcalls _ hr (.part hr ha) _ _ h
  | parts hr ha hv =>
    rw [readSchema_parts hr ha hv] at h
    cases raises_throw_iff.mp h
    exact .here (.parts ha)
  | untyped hr ha ht =>
    rw [readSchema_untyped hr ha ht] at h
    cases raises_throw_iff.mp h
    exact .here (.untyped ht)
  | string hs =>
    rw [readSchema_string hs] at h
    exact .here (stopsAt_of_readString h)
  | integer hs =>
    rw [readSchema_integer hs] at h
    exact .here (stopsAt_of_readNumeric h)
  | number hs =>
    rw [readSchema_number hs] at h
    exact .here (stopsAt_of_readNumeric h)
  | boolean hs =>
    rw [readSchema_boolean hs] at h
    exact absurd h not_raises_pure
  | array hs hi =>
    rw [readSchema_array hs hi] at h
    rcases h.of_bind with h | ⟨_, h⟩
    · exact hcalls _ hs.reference (.items hs hi) _ _ h
    rcases h.of_bind with h | ⟨_, h⟩
    · exact .here (stopsAt_of_boundAt (by decide) h)
    rcases h.of_bind with h | ⟨_, h⟩
    · exact .here (stopsAt_of_boundAt (by decide) h)
    · exact absurd h not_raises_pure
  | noElements hs hi =>
    rw [readSchema_noElements hs hi] at h
    cases raises_throw_iff.mp h
    exact .here (.element hs hi)
  | object hs =>
    rw [readSchema_object hs] at h
    rcases h.of_bind with h | ⟨_, h⟩
    · rcases of_raises_readProperties h with ⟨name, gs, hint, d, hmem, h⟩ | ⟨name, v, hmem, hv, rfl⟩
      · exact hcalls _ hs.reference (.property hs hmem) _ _ h
      · exact .here (.property hs hmem hv)
    rcases h.of_bind with h | ⟨_, h⟩
    · exact absurd h not_raises_report
    · exact absurd h not_raises_pure
  | other hr ha ht hname =>
    rw [readSchema_other hr ha ht hname] at h
    cases raises_throw_iff.mp h
    exact .here (.type ht hname)

end RecordGrammar.JsonSchema
