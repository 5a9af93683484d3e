import RecordGrammar.Proofs.JsonSchema.References
import RecordGrammar.Proofs.Reporting

/-!
# Runs of the reader

`Reads document fs hint d s`: the schema `fs` is read as the shape `s`, where `hint` is a name for it and `d` says whether it is a
definition. The relation says nothing of the references that may still be followed, since no shape depends on them. A schema has
one of a few forms (`Form`), and for each of them there is an equation for the reader; `reads_of_gives` goes through them.
-/

namespace RecordGrammar.JsonSchema
open Json Reporting

/-- The schema is of a type by itself, neither by a reference nor by a part. -/
structure Settled (fs : Fields) (type : String) : Prop where
  reference : fs.text? "$ref" = none
  parts : fs.get? "allOf" = none
  type : typeOf fs = .ok (.str type)

/-- What a schema of a type whose values are texts is read as: listed values come first, then the formats with a type of their
own, then the bounds. -/
inductive ReadsString (fs : Fields) (hint : Option String) : Bool → Shape → Prop
  | enumeration {vs : List Json} (h : listedValues? fs = some vs) (htexts : vs.all (·.str?.isSome) = true) :
    ReadsString fs hint true (.enum (Text.firstNonEmpty [fs.text? "title", hint] "enum") (vs.filterMap str?))
  | values {vs : List Json} (h : listedValues? fs = some vs) (htexts : vs.all (·.str?.isSome) = true) :
    ReadsString fs hint false (.string { allowed := vs.filterMap str? })
  | date {d : Bool} (h : listedValues? fs = none) (hf : fs.text? "format" = some "date-time") :
    ReadsString fs hint d (.scalar .date Scalar.date.defaultName)
  | guid {d : Bool} (h : listedValues? fs = none) (hf : fs.text? "format" = some "uuid") :
    ReadsString fs hint d (.scalar .guid Scalar.guid.defaultName)
  | text {d : Bool} {lo hi : Option Nat} (h : listedValues? fs = none)
    (hf : fs.text? "format" ≠ some "date-time" ∧ fs.text? "format" ≠ some "uuid")
    (hlo : boundOfJson "min_length" ((fs.get? "minLength").getD .null) = .ok lo)
    (hhi : boundOfJson "max_length" ((fs.get? "maxLength").getD .null) = .ok hi) :
    ReadsString fs hint d (.string { minLength := lo, maxLength := hi, format := fs.text? "format" })

mutual

inductive Reads (document : Fields) : Fields → Option String → Bool → Shape → Prop
  | definition {fs target : Fields} {hint : Option String} {d : Bool} {r : String} {s : Shape} (hr : fs.text? "$ref" = some r)
    (htarget : resolve document r = .ok (.obj target)) (h : Reads document target (some (referenceName r)) true s) :
    Reads document fs hint d s
  | part {fs part : Fields} {hint : Option String} {d : Bool} {s : Shape} (hr : fs.text? "$ref" = none)
    (ha : fs.get? "allOf" = some (.arr [.obj part])) (h : Reads document (mergePart fs part) hint d s) :
    Reads document fs hint d s
  | string {fs : Fields} {hint : Option String} {d : Bool} {s : Shape} (hs : Settled fs "string") (h : ReadsString fs hint d s) :
    Reads document fs hint d s
  | integer {fs : Fields} {hint : Option String} {d : Bool} (hs : Settled fs "integer") (henum : fs.has "enum" = false)
    (hconst : fs.has "const" = false) : Reads document fs hint d (.scalar .integer Scalar.integer.defaultName)
  | number {fs : Fields} {hint : Option String} {d : Bool} (hs : Settled fs "number") (henum : fs.has "enum" = false)
    (hconst : fs.has "const" = false) : Reads document fs hint d (.scalar .decimal Scalar.decimal.defaultName)
  | boolean {fs : Fields} {hint : Option String} {d : Bool} (hs : Settled fs "boolean") :
    Reads document fs hint d (.scalar .boolean Scalar.boolean.defaultName)
  | array {fs items : Fields} {hint : Option String} {d : Bool} {s : Shape} {lo hi : Option Nat} (hs : Settled fs "array")
    (hitems : fs.get? "items" = some (.obj items)) (h : Reads document items none false s)
    (hlo : boundOfJson "min_items" ((fs.get? "minItems").getD .null) = .ok lo)
    (hhi : boundOfJson "max_items" ((fs.get? "maxItems").getD .null) = .ok hi) :
    Reads document fs hint d (.array s lo hi "array")
  | object {fs : Fields} {hint : Option String} {d : Bool} {fields : List (Field Shape)} (hs : Settled fs "object")
    (h : ReadsFields document (fs.fieldsAt "properties") fields) :
    Reads document fs hint d (.object (Text.firstNonEmpty [fs.text? "title", hint] "object") fields)

/-- The properties are read as the fields, one by one. -/
inductive ReadsFields (document : Fields) : Fields → List (Field Shape) → Prop
  | nil : ReadsFields document [] []
  | cons {fs rest : Fields} {name : String} {s : Shape} {fields : List (Field Shape)} (h : Reads document fs (some name) false s)
    (hrest : ReadsFields document rest fields) :
    ReadsFields document ((name, .obj fs) :: rest) (⟨name, s, fs.text? "description"⟩ :: fields)

end

variable {document fs : Fields} {hint : Option String} {d : Bool} {s : Shape}

theorem Settled.of_type {type : String} (hr : fs.text? "$ref" = none) (ha : fs.get? "allOf" = none)
    (ht : fs.get? "type" = some (.str type)) : Settled fs type := by
  refine ⟨hr, ha, ?_⟩
  unfold typeOf
  rw [ht]

theorem Settled.type_eq {a b : String} (h : Settled fs a) (h' : Settled fs b) : a = b := by
  have he := h.type
  rw [h'.type] at he
  cases he
  rfl

/-! ### Forms of schemas -/

/-- What a schema is to the reader, which asks for a reference first, then for parts, and then for the type. -/
inductive Form (fs : Fields) : Prop
  | reference {r : String} (hr : fs.text? "$ref" = some r)
  | part {part : Fields} (hr : fs.text? "$ref" = none) (ha : fs.get? "allOf" = some (.arr [.obj part]))
  | parts {v : Json} (hr : fs.text? "$ref" = none) (ha : fs.get? "allOf" = some v) (hv : ∀ part : Fields, v ≠ .arr [.obj part])
  | untyped {e : SchemaError} (hr : fs.text? "$ref" = none) (ha : fs.get? "allOf" = none) (ht : typeOf fs = .error e)
  | string (hs : Settled fs "string")
  | integer (hs : Settled fs "integer")
  | number (hs : Settled fs "number")
  | boolean (hs : Settled fs "boolean")
  | array {items : Fields} (hs : Settled fs "array") (hi : fs.get? "items" = some (.obj items))
  | noElements (hs : Settled fs "array") (hi : ∀ items : Fields, fs.get? "items" ≠ some (.obj items))
  | object (hs : Settled fs "object")
  | other {t : Json} (hr : fs.text? "$ref" = none) (ha : fs.get? "allOf" = none) (ht : typeOf fs = .ok t)
    (hname : ∀ name ∈ supportedTypes, t ≠ .str name)

theorem Settled.form {type : String} (hs : Settled fs type) (htype : type ∈ supportedTypes) : Form fs := by
  simp only [supportedTypes, List.mem_cons, List.not_mem_nil, or_false] at htype
  rcases htype with rfl | rfl | rfl | rfl | rfl | rfl
  · exact .object hs
  · by_cases hi : ∃ items : Fields, fs.get? "items" = some (.obj items)
    · obtain ⟨items, hi⟩ := hi
      exact .array hs hi
    · exact .noElements hs fun items he => hi ⟨items, he⟩
  · exact .string hs
  · exact .integer hs
  · exact .number hs
  · exact .boolean hs

theorem form (fs : Fields) : Form fs := by
  cases hr : fs.text? "$ref" with
  | some r => exact .reference hr
  | none =>
    cases ha : fs.get? "allOf" with
    | some v =>
      by_cases hv : ∃ part : Fields, v = .arr [.obj part]
      · obtain ⟨part, rfl⟩ := hv
        exact .part hr ha
      · exact .parts hr ha fun part he => hv ⟨part, he⟩
    | none =>
      cases ht : typeOf fs with
      | error e => exact .untyped hr ha ht
      | ok t =>
        by_cases hname : ∃ name ∈ supportedTypes, t = .str name
        · obtain ⟨name, hmem, rfl⟩ := hname
          exact Settled.form ⟨hr, ha, ht⟩ hmem
        · exact .other hr ha ht fun name hmem he => hname ⟨name, hmem, he⟩

section
variable {part items : Fields} {fresh : List String} {r : String} {t : Json} {e : SchemaError}

theorem readSchema_reference (hr : fs.text? "$ref" = some r) : readSchema document fresh fs hint d = (do
    report (.followingReference r)
    if r ∈ fresh then
      match resolve document r with
      | .ok (.obj target) => readSchema document (fresh.erase r) target (some (referenceName r)) true
      | .ok v => throw (.notASchema v.kindName)
      | .error e => throw e
    else throw (.cyclic [referenceName r])) := by
  rw [readSchema]
  split
  · next he =>
    cases hr.symm.trans he
    rfl
  · next he => cases hr.symm.trans he

theorem readSchema_part (hr : fs.text? "$ref" = none) (ha : fs.get? "allOf" = some (.arr [.obj part])) :
    readSchema document fresh fs hint d = readSchema document fresh (mergePart fs part) hint d := by
  rw [readSchema, hr]
  dsimp only
  split
  · next he =>
    cases ha.symm.trans he
    rfl
  · next hother he => exact absurd (ha.symm.trans he) (by simpa using fun he => hother _ he.symm)
  · next he => cases ha.symm.trans he

theorem readSchema_parts {v : Json} (hr : fs.text? "$ref" = none) (ha : fs.get? "allOf" = some v)
    (hv : ∀ part : Fields, v ≠ .arr [.obj part]) : readSchema document fresh fs hint d = throw .severalParts := by
  rw [readSchema, hr]
  dsimp only
  split
  · next he => exact absurd (Option.some.inj (ha.symm.trans he)) (hv _)
  · rfl
  · next he => cases ha.symm.trans he

/-- Without a reference and without parts, the type says how a schema is read. -/
theorem readSchema_typed (hr : fs.text? "$ref" = none) (ha : fs.get? "allOf" = none) :
    readSchema document fresh fs hint d = match typeOf fs with
      | .error e => throw e
      | .ok (.str "object") => do
        let fields ← readProperties document fresh (fs.fieldsAt "properties")
        report (.objectRead (Text.firstNonEmpty [fs.text? "title", hint] "object") fields.length)
        return .object (Text.firstNonEmpty [fs.text? "title", hint] "object") fields
      | .ok (.str "array") =>
        match fs.get? "items" with
        | some (.obj items) => do
          let element ← readSchema document fresh items none false
          let minItems ← boundAt fs "minItems" "min_items"
          let maxItems ← boundAt fs "maxItems" "max_items"
          return .array element minItems maxItems "array"
        | _ => throw .noElementSchema
      | .ok (.str "string") => readString fs hint d
      | .ok (.str "integer") => readNumeric fs .integer
      | .ok (.str "number") => readNumeric fs .decimal
      | .ok (.str "boolean") => return .scalar .boolean Scalar.boolean.defaultName
      | .ok t => throw (.unreadableType t) := by
  rw [readSchema, hr]
  dsimp only
  split
  · next he => cases ha.symm.trans he
  · next he => cases ha.symm.trans he
  · generalize typeOf fs = type
    split
    · rfl
    · split
      · next hp => simp only [Fields.fieldsAt_of_obj hp]
      · next hp => simp only [Fields.fieldsAt_of_ne_obj hp, readProperties]
    · split
      · next hi => simp only [hi]
      · simp only
    · rfl
    · rfl
    · rfl
    · rfl
    · simp only

theorem readSchema_untyped (hr : fs.text? "$ref" = none) (ha : fs.get? "allOf" = none) (ht : typeOf fs = .error e) :
    readSchema document fresh fs hint d = throw e := by
  simp only [readSchema_typed hr ha, ht]

theorem readSchema_other (hr : fs.text? "$ref" = none) (ha : fs.get? "allOf" = none) (ht : typeOf fs = .ok t)
    (hname : ∀ name ∈ supportedTypes, t ≠ .str name) : readSchema document fresh fs hint d = throw (.unreadableType t) := by
  rw [readSchema_typed hr ha, ht]
  split <;> simp_all [supportedTypes]

theorem readSchema_string (h : Settled fs "string") : readSchema document fresh fs hint d = readString fs hint d := by
  simp only [readSchema_typed h.reference h.parts, h.type]

theorem readSchema_integer (h : Settled fs "integer") : readSchema document fresh fs hint d = readNumeric fs .integer := by
  simp only [readSchema_typed h.reference h.parts, h.type]

theorem readSchema_number (h : Settled fs "number") : readSchema document fresh fs hint d = readNumeric fs .decimal := by
  simp only [readSchema_typed h.reference h.parts, h.type]

theorem readSchema_boolean (h : Settled fs "boolean") :
    readSchema document fresh fs hint d = pure (.scalar .boolean Scalar.boolean.defaultName) := by
  simp only [readSchema_typed h.reference h.parts, h.type]

theorem readSchema_array (h : Settled fs "array") (hi : fs.get? "items" = some (.obj items)) :
    readSchema document fresh fs hint d = (do
      let element ← readSchema document fresh items none false
      let minItems ← boundAt fs "minItems" "min_items"
      let maxItems ← boundAt fs "maxItems" "max_items"
      return .array element minItems maxItems "array") := by
  simp only [readSchema_typed h.reference h.parts, h.type, hi]

theorem readSchema_noElements (h : Settled fs "array") (hi : ∀ items : Fields, fs.get? "items" ≠ some (.obj items)) :
    readSchema document fresh fs hint d = throw .noElementSchema := by
  simp only [readSchema_typed h.reference h.parts, h.type]

theorem readSchema_object (h : Settled fs "object") : readSchema document fresh fs hint d = (do
    let fields ← readProperties document fresh (fs.fieldsAt "properties")
    report (.objectRead (Text.firstNonEmpty [fs.text? "title", hint] "object") fields.length)
    return .object (Text.firstNonEmpty [fs.text? "title", hint] "object") fields) := by
  simp only [readSchema_typed h.reference h.parts, h.type]

end

/-! ### The reader and the relations -/

theorem bound_of_gives {keyword label : String} {b : Option Nat} (h : Gives (boundAt fs keyword label) b) :
    boundOfJson label ((fs.get? keyword).getD .null) = .ok b := by
  unfold boundAt at h
  split at h
  · next b' hb => rw [hb, gives_pure_iff.mp h]
  · exact absurd h not_gives_throw

theorem readsString_of_gives (h : Gives (readString fs hint d) s) : ReadsString fs hint d s := by
  unfold readString at h
  split at h
  · next vs hvs =>
    split at h
    · next htexts =>
      cases d with
      | true =>
        rw [gives_pure_iff.mp h]
        exact .enumeration hvs htexts
      | false =>
        rw [gives_pure_iff.mp h]
        exact .values hvs htexts
    · exact absurd h not_gives_throw
  · next hvs =>
    split at h
    · next hf =>
      rw [gives_pure_iff.mp h]
      exact .date hvs hf
    · next hf =>
      rw [gives_pure_iff.mp h]
      exact .guid hvs hf
    · next hdate hguid =>
      obtain ⟨lo, hlo, h⟩ := h.of_bind
      obtain ⟨hi, hhi, h⟩ := h.of_bind
      rw [gives_pure_iff.mp h]
      exact .text hvs ⟨hdate, hguid⟩ (bound_of_gives hlo) (bound_of_gives hhi)

theorem of_gives_readNumeric {kind : Scalar} (h : Gives (readNumeric fs kind) s) :
    fs.has "enum" = false ∧ fs.has "const" = false ∧ s = .scalar kind kind.defaultName := by
  unfold readNumeric at h
  split at h
  · exact absurd h not_gives_throw
  · next hlisted =>
    rw [Bool.or_eq_true, not_or, Bool.not_eq_true, Bool.not_eq_true] at hlisted
    exact ⟨hlisted.1, hlisted.2, gives_pure_iff.mp h⟩

theorem readsFields_of_gives {fresh : List String} {properties : Fields} {fields : List (Field Shape)}
    (hreads : ∀ name gs, (name, .obj gs) ∈ properties → ∀ hint d s, Gives (readSchema document fresh gs hint d) s →
      Reads document gs hint d s) (h : Gives (readProperties document fresh properties) fields) :
    ReadsFields document properties fields := by
  induction properties generalizing fields with
  | nil =>
    rw [readProperties] at h
    rw [gives_pure_iff.mp h]
    exact .nil
  | cons f rest ih =>
    obtain ⟨name, v⟩ := f
    cases v with
    | obj fs =>
      rw [readProperties] at h
      obtain ⟨s, hs, h⟩ := h.of_bind
      obtain ⟨fields', hrest, h⟩ := h.of_bind
      rw [gives_pure_iff.mp h]
      refine .cons (hreads name fs List.mem_cons_self _ _ _ hs) (ih ?_ hrest)
      intro name' gs hg
      exact hreads name' gs (List.mem_cons_of_mem _ hg)
    | null | bool | int | float | str | arr =>
      rw [readProperties] at h
      · exact absurd h not_gives_throw
      · intro gs hv
        cases hv

theorem reads_of_gives {fresh : List String} (h : Gives (readSchema document fresh fs hint d) s) :
    Reads document fs hint d s := by
  induction fresh, fs using reading_induction generalizing hint d s with
  | step fresh fs ihfollowed ihopened =>
  cases form fs with
  | reference hr =>
    rw [readSchema_reference hr] at h
    obtain ⟨-, -, h⟩ := h.of_bind
    split at h
    · next hfresh =>
      split at h
      · next target ht => exact .definition hr ht (ihfollowed _ hfresh target h)
      · exact absurd h not_gives_throw
      · exact absurd h not_gives_throw
    · exact absurd h not_gives_throw
  | part hr ha =>
    rw [readSchema_part hr ha] at h
    exact .part hr ha (ihopened _ (.part hr ha) h)
  | parts hr ha hv =>
    rw [readSchema_parts hr ha hv] at h
    exact absurd h not_gives_throw
  | untyped hr ha ht =>
    rw [readSchema_untyped hr ha ht] at h
    exact absurd h not_gives_throw
  | string hs =>
    rw [readSchema_string hs] at h
    exact .string hs (readsString_of_gives h)
  | integer hs =>
    rw [readSchema_integer hs] at h
    obtain ⟨henum, hconst, rfl⟩ := of_gives_readNumeric h
    exact .integer hs henum hconst
  | number hs =>
    rw [readSchema_number hs] at h
    obtain ⟨henum, hconst, rfl⟩ := of_gives_readNumeric h
    exact .number hs henum hconst
  | boolean hs =>
    rw [readSchema_boolean hs] at h
    rw [gives_pure_iff.mp h]
    exact .boolean hs
  | array hs hi =>
    rw [readSchema_array hs hi] at h
    obtain ⟨element, helement, h⟩ := h.of_bind
    obtain ⟨lo, hlo, h⟩ := h.of_bind
    obtain ⟨hi', hhi, h⟩ := h.of_bind
    rw [gives_pure_iff.mp h]
    have hread := ihopened _ (.items hs.reference hs.parts hi) helement
    exact .array hs hi hread (bound_of_gives hlo) (bound_of_gives hhi)
  | noElements hs hi =>
    rw [readSchema_noElements hs hi] at h
    exact absurd h not_gives_throw
  | object hs =>
    rw [readSchema_object hs] at h
    obtain ⟨fields, hfields, h⟩ := h.of_bind
    obtain ⟨-, -, h⟩ := h.of_bind
    rw [gives_pure_iff.mp h]
    refine .object hs (readsFields_of_gives (fun name gs hmem hint d s h => ?_) hfields)
    obtain ⟨properties, hp, hmem⟩ := Fields.mem_fieldsAt_iff.mp hmem
    exact ihopened gs (.property hs.reference hs.parts hp hmem) h
  | other hr ha ht hname =>
    rw [readSchema_other hr ha ht hname] at h
    exact absurd h not_gives_throw

theorem reads_document (h : (readDocument (.obj document)).outcome.1 = .ok s) : Reads document document none false s := by
  have h := gives_of_outcome h
  unfold readDocument readValid at h
  dsimp only at h
  split at h
  · exact absurd h not_gives_throw
  · split at h
    · exact absurd h not_gives_throw
    · exact absurd h not_gives_throw
    · exact reads_of_gives h

end RecordGrammar.JsonSchema
