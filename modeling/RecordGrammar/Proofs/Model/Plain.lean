import RecordGrammar.Proofs.Json.Arranged

/-!
# Plain types and their schemas

A plain type is built from the types that both readers know: texts, numbers, truth values, times and identifiers, lists of
texts, enumerations of texts, arrays and models. Lengths are bounded only for texts and arrays, and only a text has a format.

`Describes c t gs`: the fields `gs` are an arranged schema of the type, perhaps with a title and a description. A plain type's
schema is made of few keywords (`Keyword`), and a schema inside it stands only under `items` (`PlainSchema`).
-/

namespace RecordGrammar
open Json

namespace Constraints
variable {c : Constraints}

/-- Whether there are no constraints. -/
def isEmpty (c : Constraints) : Bool := c.minLength.isNone && c.maxLength.isNone && c.extra.isEmpty

/-- Whether the constraints add no keyword but a format. -/
def addsFormatOnly (c : Constraints) : Bool :=
  match c.extra with
  | [] | [("format", .str _)] => true
  | _ => false

theorem eq_of_isEmpty (h : c.isEmpty = true) : c = {} := by
  obtain ⟨_ | _, _ | _, _ | _⟩ := c
  · rfl
  all_goals cases h

theorem extra_cases (h : c.addsFormatOnly = true) : c.extra = [] ∨ ∃ s, c.extra = [("format", .str s)] := by
  unfold addsFormatOnly at h
  split at h
  · next he => exact .inl he
  · next s he => exact .inr ⟨s, he⟩
  · cases h

end Constraints

namespace FieldType

/-- Whether both readers know the type, and the constraints fit it. -/
def isPlain (c : Constraints) : FieldType → Bool
  | basic .text => c.addsFormatOnly
  | basic .integer | basic .float | basic .boolean | basic .dateTime | basic .guid | model _ => c.isEmpty
  | literal vs | enumeration _ vs => c.isEmpty && vs.all (·.str?.isSome)
  | array _ t => c.extra.isEmpty && t.isPlain {}
  | annotated t inner => t.isPlain (c.around inner)
  | basic _ | bareArray | set _ | tuple _ | map _ _ | union _ => false

/-- The definitions that the schema of a type refers to. -/
def definitionNames (t : FieldType) : List String := t.models ++ t.enumerations.map (·.1)

theorem of_isPlain_array {c : Constraints} {spelling : ArraySpelling} {t : FieldType}
    (h : (array spelling t).isPlain c = true) : c.extra = [] ∧ t.isPlain {} = true := by
  obtain ⟨hc, ht⟩ := Bool.and_eq_true_iff.mp h
  exact ⟨List.isEmpty_iff.mp hc, ht⟩

theorem of_isPlain_literal {c : Constraints} {vs : List Json} (h : (literal vs).isPlain c = true) :
    c = {} ∧ vs.all (·.str?.isSome) = true := by
  obtain ⟨hc, htexts⟩ := Bool.and_eq_true_iff.mp h
  exact ⟨Constraints.eq_of_isEmpty hc, htexts⟩

theorem of_isPlain_enumeration {c : Constraints} {name : String} {vs : List Json}
    (h : (enumeration name vs).isPlain c = true) : c = {} ∧ vs.all (·.str?.isSome) = true :=
  of_isPlain_literal h

theorem texts_of_isPlain : ∀ {t : FieldType} {c : Constraints} {e : String × List Json}, t.isPlain c = true →
    e ∈ t.enumerations → e.2.all (·.str?.isSome) = true
  | array _ t, _, _, h, he => texts_of_isPlain (t := t) (of_isPlain_array h).2 he
  | annotated t _, _, _, h, he => texts_of_isPlain (t := t) h he
  | enumeration name vs, _, _, h, he => by
    cases List.mem_singleton.mp he
    exact (of_isPlain_enumeration h).2

end FieldType

/-- The keywords in schemas of plain types. References lead to definitions among `names`. -/
inductive Keyword (names : List String) : String → Json → Prop
  | description {key : String} (h : key ∈ ["title", "description"]) (s : String) : Keyword names key (.str s)
  | reference {name : String} (h : name ∈ names) : Keyword names "$ref" (.str ("#/$defs/" ++ name))
  | type {s : String} (h : s ∈ ["string", "integer", "number", "boolean", "array"]) : Keyword names "type" (.str s)
  | format (s : String) : Keyword names "format" (.str s)
  | bound {key : String} (h : key ∈ ["minLength", "maxLength", "minItems", "maxItems"]) (n : Nat) :
    Keyword names key (.int n)
  | const (s : String) : Keyword names "const" (.str s)
  | enum {vs : List Json} (h : vs.all (·.str?.isSome) = true) : Keyword names "enum" (.arr vs)
  | items (gs : Fields) : Keyword names "items" (.obj gs)

/-- A schema of keywords of plain types, down to the elements of arrays. -/
inductive PlainSchema (names : List String) : Fields → Prop
  | intro {gs : Fields} (keys : (gs.map (·.1)).Nodup) (keywords : ∀ key v, (key, v) ∈ gs → Keyword names key v)
    (items : ∀ hs, ("items", .obj hs) ∈ gs → PlainSchema names hs) : PlainSchema names gs

/-- The fields are an arranged schema of the type, perhaps with a title and a description. -/
structure Describes (c : Constraints) (t : FieldType) (gs : Fields) : Prop where
  keys : (gs.map (·.1)).Nodup
  texts : ∀ key ∈ ["title", "description"], ∀ v, gs.get? key = some v → ∃ s, v = .str s
  get? : ∀ key ∉ ["title", "description"], gs.get? key = ((t.schema c []).get? key).map (arranged (keepsOrder key))

/-! ### Schemas before they are arranged -/

variable {c : Constraints} {t : FieldType} {key : String} {v : Json} {described base gs hs : Fields}

namespace Constraints

/-- The keyword of one bound, if there is one. -/
def bound (key : String) (b : Option Nat) : Fields := (b.map fun n : Nat => (key, Json.int n)).toList

theorem bounds_eq (least greatest : String) :
    c.bounds least greatest = bound least c.minLength ++ bound greatest c.maxLength := by
  obtain ⟨_ | lo, _ | hi, _⟩ := c <;> rfl

theorem get?_bound {k : String} {b : Option Nat} :
    (bound k b).get? key = if key = k then b.map (fun n : Nat => Json.int n) else none := by
  cases b with
  | none => exact (ite_self none).symm
  | some n => exact Fields.get?_cons

theorem get?_bounds {least greatest : String} (h : least ≠ greatest) : Fields.get? (c.bounds least greatest) key =
    if key = least then c.minLength.map (fun n : Nat => Json.int n)
    else if key = greatest then c.maxLength.map (fun n : Nat => Json.int n) else none := by
  rw [bounds_eq, Fields.get?_append, get?_bound, get?_bound]
  by_cases hl : key = least
  · rw [if_pos hl, if_pos hl, if_neg (hl ▸ h), Option.or_none]
  · rw [if_neg hl, if_neg hl, Option.none_or]

theorem mem_bound {k : String} {b : Option Nat} (h : (key, v) ∈ bound k b) : key = k ∧ ∃ n : Nat, v = .int n := by
  obtain ⟨n, -, he⟩ := Option.map_eq_some_iff.mp (Option.mem_toList.mp h)
  cases he
  exact ⟨rfl, n, rfl⟩

theorem mem_bounds {least greatest : String} (h : (key, v) ∈ c.bounds least greatest) :
    (key = least ∨ key = greatest) ∧ ∃ n : Nat, v = .int n := by
  rw [bounds_eq, List.mem_append] at h
  rcases h with h | h
  · exact ⟨.inl (mem_bound h).1, (mem_bound h).2⟩
  · exact ⟨.inr (mem_bound h).1, (mem_bound h).2⟩

end Constraints

/-- Completing a schema of plain type adds what describes it, and perhaps a format. -/
theorem Constraints.get?_complete (hc : c.addsFormatOnly = true) (hd : (described.map (·.1)).Nodup) :
    (c.complete described base).get? key = (c.extra.get? key).or ((described.get? key).or (base.get? key)) := by
  unfold Constraints.complete
  rw [Fields.get?_merge, Fields.get?_merge hd]
  rcases Constraints.extra_cases hc with he | ⟨s, he⟩
  · simp [he]
  · simp [he]

theorem commonType_texts {vs : List Json} (h : vs.all (·.str?.isSome) = true) : commonType vs = typed "string" := by
  unfold commonType
  rw [if_pos h]

/-- The schema of a list of texts: a single one is fixed. -/
theorem FieldType.schema_literal {vs : List Json} (h : vs.all (·.str?.isSome) = true) :
    (∃ s, vs = [.str s] ∧
      ∀ described, (literal vs).schema c described = c.complete described (("const", .str s) :: typed "string")) ∨
    ∀ described, (literal vs).schema c described = c.complete described (("enum", .arr vs) :: typed "string") := by
  rcases vs with _ | ⟨v, _ | ⟨w, vs⟩⟩
  · exact .inr fun _ => rfl
  · cases v with
    | str s => exact .inl ⟨s, rfl, fun _ => rfl⟩
    | null | bool | int | float | arr | obj => cases h
  · refine .inr fun described => ?_
    rw [schema, commonType_texts h]
    exact nofun

/-- A plain type's schema completes one that has neither a title nor a description. -/
theorem FieldType.exists_base : ∀ {t : FieldType} {c : Constraints}, t.isPlain c = true →
    ∃ (c' : Constraints) (base : Fields), (∀ described, t.schema c described = c'.complete described base) ∧
      c'.addsFormatOnly = true ∧ (base.map (·.1)).Nodup ∧ ∀ key ∈ ["title", "description"], key ∉ base.map (·.1)
  | basic .text, c, h => by
    refine ⟨c, _, fun _ => rfl, h, ?_⟩
    obtain ⟨_ | lo, _ | hi, _⟩ := c <;> simp [BasicType.schema, typed, Constraints.lengthBounds, Constraints.bounds]
  | basic .integer, c, h | basic .float, c, h | basic .boolean, c, h | basic .dateTime, c, h | basic .guid, c, h => by
    cases Constraints.eq_of_isEmpty h
    exact ⟨{}, _, fun _ => rfl, rfl, by decide⟩
  | array _ t, c, h => by
    refine ⟨c, _, fun _ => rfl, ?_, ?_⟩
    · unfold Constraints.addsFormatOnly
      rw [(of_isPlain_array h).1]
    · obtain ⟨_ | lo, _ | hi, _⟩ := c <;> simp [typed, Constraints.itemBounds, Constraints.bounds]
  | literal vs, c, h => by
    obtain ⟨rfl, htexts⟩ := of_isPlain_literal h
    rcases schema_literal htexts with ⟨s, -, hschema⟩ | hschema
    · exact ⟨{}, _, hschema, rfl, by simp [typed]⟩
    · exact ⟨{}, _, hschema, rfl, by simp [typed]⟩
  | enumeration name _, c, h => by
    cases (of_isPlain_enumeration h).1
    exact ⟨{}, _, fun _ => rfl, rfl, by simp [referenceTo]⟩
  | model name, c, h => by
    cases Constraints.eq_of_isEmpty h
    exact ⟨{}, _, fun _ => rfl, rfl, by simp [referenceTo]⟩
  | annotated t inner, c, h => exists_base (t := t) h

section
variable (h : t.isPlain c = true)
include h

theorem nodup_schema (described : Fields) : ((t.schema c described).map (·.1)).Nodup := by
  obtain ⟨c', base, hschema, -, hbase, -⟩ := FieldType.exists_base h
  rw [hschema]
  exact Fields.nodup_merge (Fields.nodup_merge hbase)

/-- What describes a schema touches none of its other keywords. -/
theorem get?_schema (hd : (described.map (·.1)).Nodup) (hkey : key ∉ described.map (·.1)) :
    (t.schema c described).get? key = (t.schema c []).get? key := by
  obtain ⟨c', base, hschema, hc, -⟩ := FieldType.exists_base h
  rw [hschema, hschema, Constraints.get?_complete hc hd, Constraints.get?_complete hc Fields.nodup_nil,
    Fields.get?_eq_none_iff.mpr hkey, Fields.get?_nil]

theorem get?_schema_description (hd : (described.map (·.1)).Nodup) (hkey : key ∈ ["title", "description"]) :
    (t.schema c described).get? key = described.get? key := by
  obtain ⟨c', base, hschema, hc, -, hbase⟩ := FieldType.exists_base h
  have hextra : c'.extra.get? key = none := by
    rw [Fields.get?_eq_none_iff]
    rcases Constraints.extra_cases hc with he | ⟨s, he⟩
    · rw [he]
      exact List.not_mem_nil
    · rw [he]
      intro hmem
      have hformat : key = "format" := List.mem_singleton.mp hmem
      subst hformat
      exact absurd hkey (by decide)
  rw [hschema, Constraints.get?_complete hc hd, hextra, Fields.get?_eq_none_iff.mpr (hbase key hkey), Option.none_or,
    Option.or_none]

end

theorem schema_array {spelling : ArraySpelling} (h : c.extra = []) :
    (FieldType.array spelling t).schema c [] = typed "array" (("items", .obj (t.schema {} [])) :: c.itemBounds) := by
  rw [FieldType.schema, Constraints.complete, h]
  rfl

theorem Constraints.mem_complete (hc : c.addsFormatOnly = true) (h : (key, v) ∈ c.complete [] base) :
    (key = "format" ∧ ∃ s, v = .str s) ∨ (key, v) ∈ base := by
  rcases Fields.mem_merge h with h | h
  · rcases Constraints.extra_cases hc with he | ⟨s, he⟩
    · rw [he] at h
      cases h
    · rw [he] at h
      cases List.mem_singleton.mp h
      exact .inl ⟨rfl, s, rfl⟩
  · exact .inr h

theorem get?_schema_text (h : c.addsFormatOnly = true) : ((FieldType.basic .text).schema c []).get? key =
    if key = "format" then (c.extra.text? "format").map .str
    else if key = "type" then some (.str "string")
    else if key = "minLength" then c.minLength.map (fun n : Nat => Json.int n)
    else if key = "maxLength" then c.maxLength.map (fun n : Nat => Json.int n) else none := by
  rw [FieldType.schema, Constraints.get?_complete h Fields.nodup_nil, Fields.get?_nil, Option.none_or, BasicType.schema,
    typed, Fields.get?_cons, Constraints.lengthBounds, Constraints.get?_bounds (by decide)]
  rcases Constraints.extra_cases h with he | ⟨s, he⟩
  · rw [he, Fields.get?_nil, Option.none_or]
    by_cases hf : key = "format"
    · subst hf
      rfl
    · rw [if_neg hf]
  · rw [he, Fields.get?_cons]
    by_cases hf : key = "format"
    · rw [if_pos hf, if_pos hf]
      rfl
    · rw [if_neg hf, if_neg hf, Fields.get?_nil, Option.none_or]

/-! ### Schemas of fields -/

namespace ModelField
variable (f : ModelField) (h : f.type.isPlain f.constraints = true)

def descriptionKeyword (f : ModelField) : Fields := (f.description.map fun d => ("description", Json.str d)).toList

theorem schema_cases : f.schema = f.type.schema f.constraints f.descriptionKeyword ∨
    f.schema = (f.type.schema f.constraints f.descriptionKeyword).set "title" (.str (titleOfName f.key)) := by
  unfold schema
  extract_lets described fs
  split
  · exact .inl rfl
  · exact .inr rfl

theorem nodup_descriptionKeyword : (f.descriptionKeyword.map (·.1)).Nodup := by
  unfold descriptionKeyword
  cases f.description with
  | none => exact List.nodup_nil
  | some d => exact List.nodup_singleton _

theorem get?_descriptionKeyword : f.descriptionKeyword.get? key = if key = "description" then f.description.map .str else none := by
  unfold descriptionKeyword
  cases f.description with
  | none => exact (ite_self none).symm
  | some d => exact Fields.get?_cons

/-- A title changes no other keyword. -/
theorem get?_schema_of_ne (hkey : key ≠ "title") :
    f.schema.get? key = (f.type.schema f.constraints f.descriptionKeyword).get? key := by
  rcases f.schema_cases with hs | hs
  · rw [hs]
  · rw [hs, Fields.get?_set, if_neg hkey]

include h

theorem nodup_schema : (f.schema.map (·.1)).Nodup := by
  have hkeys := RecordGrammar.nodup_schema h f.descriptionKeyword
  rcases f.schema_cases with hs | hs
  · rw [hs]
    exact hkeys
  · rw [hs]
    exact Fields.nodup_set hkeys

theorem get?_schema (hkey : key ∉ ["title", "description"]) :
    f.schema.get? key = (f.type.schema f.constraints []).get? key := by
  rw [f.get?_schema_of_ne fun he => hkey (he ▸ List.mem_cons_self)]
  have hne : key ≠ "description" := fun he => hkey (he ▸ List.mem_cons_of_mem _ List.mem_cons_self)
  refine RecordGrammar.get?_schema h f.nodup_descriptionKeyword ?_
  rw [← Fields.get?_eq_none_iff, get?_descriptionKeyword, if_neg hne]

theorem get?_description : f.schema.get? "description" = f.description.map .str := by
  rw [f.get?_schema_of_ne (by decide), get?_schema_description h f.nodup_descriptionKeyword (by decide), get?_descriptionKeyword]
  exact if_pos rfl

theorem text_of_get?_title (hv : f.schema.get? "title" = some v) : ∃ s, v = .str s := by
  rcases f.schema_cases with hs | hs
  · rw [hs, get?_schema_description h f.nodup_descriptionKeyword (by decide), get?_descriptionKeyword] at hv
    cases hv
  · rw [hs, Fields.get?_set] at hv
    cases hv
    exact ⟨_, rfl⟩

end ModelField

/-! ### The keywords of a schema -/

namespace Keyword
variable {names : List String} {keep : Bool} {type : String}

theorem of_str {s : String} (h : Keyword names key (.str s)) : Keyword names key ((str s).arranged keep) := by
  rw [arranged_str]
  exact h

theorem of_format (h : key = "format" ∧ ∃ s, v = .str s) : Keyword names key (v.arranged keep) := by
  obtain ⟨rfl, s, rfl⟩ := h
  exact of_str (.format s)

theorem of_bounds {least greatest : String} (h : (key, v) ∈ c.bounds least greatest)
    (hkeys : [least, greatest] ⊆ ["minLength", "maxLength", "minItems", "maxItems"]) :
    Keyword names key (v.arranged keep) := by
  obtain ⟨hkey, n, rfl⟩ := Constraints.mem_bounds h
  rw [arranged_int]
  refine .bound (hkeys ?_) n
  rcases hkey with rfl | rfl
  · exact List.mem_cons_self
  · exact List.mem_cons_of_mem _ List.mem_cons_self

/-- A schema that names its type holds that keyword and further ones. -/
theorem of_typed {more : Fields} (h : (key, v) ∈ typed type more)
    (htype : type ∈ ["string", "integer", "number", "boolean", "array"])
    (hmore : (key, v) ∈ more → Keyword names key (v.arranged keep)) : Keyword names key (v.arranged keep) := by
  rcases List.mem_cons.mp h with he | h
  · cases he
    exact of_str (.type htype)
  · exact hmore h

end Keyword

theorem keyword_of_mem : ∀ {t : FieldType} {c : Constraints}, t.isPlain c = true → (key, v) ∈ t.schema c [] →
    Keyword t.definitionNames key (v.arranged (keepsOrder key))
  | .basic .text, c, h, hmem => by
    rcases Constraints.mem_complete h hmem with hformat | hmem
    · exact .of_format hformat
    · exact .of_typed hmem (by decide) fun hmem => .of_bounds hmem (by decide)
  | .basic .integer, c, h, hmem | .basic .float, c, h, hmem | .basic .boolean, c, h, hmem => by
    cases Constraints.eq_of_isEmpty h
    exact .of_typed hmem (by decide) nofun
  | .basic .dateTime, c, h, hmem | .basic .guid, c, h, hmem => by
    cases Constraints.eq_of_isEmpty h
    refine .of_typed hmem (by decide) fun hmem => ?_
    cases List.mem_singleton.mp hmem
    exact .of_str (.format _)
  | .array spelling t, c, h, hmem => by
    rw [schema_array (FieldType.of_isPlain_array h).1] at hmem
    refine .of_typed hmem (by decide) fun hmem => ?_
    rcases List.mem_cons.mp hmem with he | hmem
    · cases he
      obtain ⟨gs, hobj, -⟩ := exists_arranges (t.schema {} []) (keepsOrder "items")
      rw [hobj]
      exact .items gs
    · exact .of_bounds hmem (by decide)
  | .literal vs, c, h, hmem => by
    obtain ⟨rfl, htexts⟩ := FieldType.of_isPlain_literal h
    rcases FieldType.schema_literal (c := {}) htexts with ⟨s, -, hschema⟩ | hschema
    · rw [hschema] at hmem
      rcases List.mem_cons.mp hmem with he | hmem
      · cases he
        exact .of_str (.const s)
      · exact .of_typed hmem (by decide) nofun
    · rw [hschema] at hmem
      rcases List.mem_cons.mp hmem with he | hmem
      · cases he
        rw [arranged_texts htexts]
        exact .enum htexts
      · exact .of_typed hmem (by decide) nofun
  | .enumeration name vs, c, h, hmem => by
    cases (FieldType.of_isPlain_enumeration h).1
    cases List.mem_singleton.mp hmem
    exact .of_str (.reference (List.mem_singleton_self name))
  | .model name, c, h, hmem => by
    cases Constraints.eq_of_isEmpty h
    cases List.mem_singleton.mp hmem
    exact .of_str (.reference (List.mem_singleton_self name))
  | .annotated t inner, c, h, hmem => keyword_of_mem (t := t) h hmem

/-! ### Arranged schemas -/

namespace Describes

theorem of_arranges {fs : Fields} (ha : Arranges fs gs) (hkeys : (fs.map (·.1)).Nodup)
    (htexts : ∀ key ∈ ["title", "description"], ∀ v, fs.get? key = some v → ∃ s, v = .str s)
    (hget : ∀ key ∉ ["title", "description"], fs.get? key = (t.schema c []).get? key) : Describes c t gs := by
  refine ⟨ha.nodup hkeys, fun key hkey v hv => ?_, fun key hkey => ?_⟩
  · rw [ha.get? hkeys] at hv
    obtain ⟨w, hw, rfl⟩ := Option.map_eq_some_iff.mp hv
    obtain ⟨s, rfl⟩ := htexts key hkey w hw
    exact ⟨s, arranged_str⟩
  · rw [ha.get? hkeys, hget key hkey]

theorem of_schema (h : t.isPlain c = true) (ha : Arranges (t.schema c []) gs) : Describes c t gs := by
  refine of_arranges ha (nodup_schema h []) (fun key hkey v hv => ?_) fun _ _ => rfl
  rw [get?_schema_description h Fields.nodup_nil hkey] at hv
  cases hv

/-- The schema of a field is one of the field's type, with its description and a title. -/
theorem of_field {f : ModelField} (h : f.type.isPlain f.constraints = true) (ha : Arranges f.schema gs) :
    Describes f.constraints f.type gs ∧ gs.text? "description" = f.description := by
  have hkeys := f.nodup_schema h
  refine ⟨of_arranges ha hkeys (fun key hkey v hv => ?_) fun key hkey => ?_, ?_⟩
  · rcases List.mem_cons.mp hkey with rfl | hkey
    · exact f.text_of_get?_title h hv
    · cases List.mem_singleton.mp hkey
      rw [f.get?_description h] at hv
      obtain ⟨s, -, rfl⟩ := Option.map_eq_some_iff.mp hv
      exact ⟨s, rfl⟩
  · exact f.get?_schema h hkey
  · have hget : gs.get? "description" = _ := ha.get? hkeys
    rw [f.get?_description h] at hget
    cases hd : f.description with
    | none =>
      rw [hd] at hget
      exact Fields.text?_of_none hget
    | some d =>
      rw [hd, Option.map_some, Option.map_some, arranged_str] at hget
      exact Fields.text?_of_str hget

theorem reference {name : String} (hgs : Describes c t gs) (h : t.schema c [] = referenceTo name) :
    gs.text? "$ref" = some ("#/$defs/" ++ name) := by
  refine Fields.text?_of_str ?_
  rw [hgs.get? "$ref" (by decide), h]
  exact congrArg some arranged_str

theorem items {spelling : ArraySpelling} (h : (FieldType.array spelling t).isPlain c = true)
    (hgs : Describes c (.array spelling t) gs) : ∃ hs, gs.get? "items" = some (.obj hs) ∧ Describes {} t hs := by
  obtain ⟨hc, ht⟩ := FieldType.of_isPlain_array h
  obtain ⟨hs, hobj, harranges⟩ := exists_arranges (t.schema {} []) false
  refine ⟨hs, ?_, of_schema ht harranges⟩
  rw [hgs.get? "items" (by decide), schema_array hc]
  exact congrArg some hobj

theorem plainSchema_of_items (h : t.isPlain c = true) (hgs : Describes c t gs)
    (hitems : ∀ hs, ("items", .obj hs) ∈ gs → PlainSchema t.definitionNames hs) : PlainSchema t.definitionNames gs := by
  refine .intro hgs.keys (fun key v hmem => ?_) hitems
  have hget := Fields.get?_of_mem hgs.keys hmem
  by_cases hkey : key ∈ ["title", "description"]
  · obtain ⟨s, rfl⟩ := hgs.texts key hkey v hget
    exact .description hkey s
  · rw [hgs.get? key hkey] at hget
    obtain ⟨w, hw, rfl⟩ := Option.map_eq_some_iff.mp hget
    exact keyword_of_mem h (Fields.mem_of_get? hw)

/-- The schema of a plain type is made of the keywords of plain types, and so are the schemas inside it. -/
theorem plainSchema : ∀ {t : FieldType} {c : Constraints} {gs : Fields}, t.isPlain c = true → Describes c t gs →
    PlainSchema t.definitionNames gs
  | .annotated t inner, c, gs, h, hgs => plainSchema (t := t) h ⟨hgs.keys, hgs.texts, hgs.get?⟩
  | .array spelling t, c, gs, h, hgs => plainSchema_of_items h hgs fun hs hmem => by
    obtain ⟨hs', hget, hhs⟩ := items h hgs
    rw [Fields.get?_of_mem hgs.keys hmem] at hget
    cases hget
    exact plainSchema (t := t) (FieldType.of_isPlain_array h).2 hhs
  | .basic .text, c, gs, h, hgs => plainSchema_of_items h hgs fun hs hmem => by
    have hget := Fields.get?_of_mem hgs.keys hmem
    rw [hgs.get? "items" (by decide), get?_schema_text h] at hget
    cases hget
  | .basic .integer, c, gs, h, hgs | .basic .float, c, gs, h, hgs | .basic .boolean, c, gs, h, hgs
  | .basic .dateTime, c, gs, h, hgs | .basic .guid, c, gs, h, hgs | .model _, c, gs, h, hgs =>
    plainSchema_of_items h hgs fun hs hmem => by
    have hget := Fields.get?_of_mem hgs.keys hmem
    cases Constraints.eq_of_isEmpty h
    rw [hgs.get? "items" (by decide)] at hget
    cases hget
  | .enumeration _ _, c, gs, h, hgs => plainSchema_of_items h hgs fun hs hmem => by
    have hget := Fields.get?_of_mem hgs.keys hmem
    cases (FieldType.of_isPlain_enumeration h).1
    rw [hgs.get? "items" (by decide)] at hget
    cases hget
  | .literal vs, c, gs, h, hgs => plainSchema_of_items h hgs fun hs hmem => by
    have hget := Fields.get?_of_mem hgs.keys hmem
    obtain ⟨rfl, htexts⟩ := FieldType.of_isPlain_literal h
    rw [hgs.get? "items" (by decide)] at hget
    rcases FieldType.schema_literal (c := {}) htexts with ⟨s, -, hschema⟩ | hschema
    · rw [hschema] at hget
      cases hget
    · rw [hschema] at hget
      cases hget

end Describes

end RecordGrammar
