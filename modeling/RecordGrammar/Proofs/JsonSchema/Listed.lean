import RecordGrammar.Proofs.JsonSchema.Places

/-!
# Listed values

A schema may list the values that it allows, fix a single one, or do both. `restricts_iff`: what is read from it is restricted
to just the values that it allows exactly if it is a string and the list, where there is one, is not empty and holds
nothing but the fixed value, where there is one. A number with such a keyword is refused, and so are texts among other
values; any other type is read as if the keyword were not there.
-/

namespace RecordGrammar

/-- The values that a shape lists. -/
def Shape.listed : Shape → List String
  | string text => text.allowed
  | enum _ values => values
  | scalar _ _ | array _ _ _ _ | object _ _ | custom _ => []

namespace JsonSchema
open Json

/-- The value is among the listed ones and is the fixed one. -/
structure Allows (fs : Fields) (v : Json) : Prop where
  listed : ∀ w, fs.get? "enum" = some w → ∃ vs, w = .arr vs ∧ v ∈ vs
  fixed : ∀ w, fs.get? "const" = some w → v = w

/-- The shape lists values, just those that the schema allows. -/
def Restricts (s : Shape) (fs : Fields) : Prop := s.listed ≠ [] ∧ ∀ v, Allows fs v ↔ ∃ t ∈ s.listed, v = .str t

/-- The list of a schema holds a value, and none but the fixed one. -/
def Agrees (fs : Fields) : Prop :=
  ∀ w, fs.get? "enum" = some w → ∃ vs, w = .arr vs ∧ vs ≠ [] ∧ ∀ c, fs.get? "const" = some c → ∀ v ∈ vs, v = c

variable {document fs gs : Fields} {os : List Fields} {vs : List Json} {s : Shape} {pos : Position}

theorem listedValues?_eq_some_iff : listedValues? fs = some vs ↔
    fs.get? "enum" = some (.arr vs) ∨
      (∀ ws, fs.get? "enum" ≠ some (.arr ws)) ∧ ∃ c, fs.get? "const" = some c ∧ vs = [c] := by
  unfold listedValues?
  split
  · next ws h => simp [h]
  · next h =>
    rw [Option.map_eq_some_iff]
    constructor
    · rintro ⟨c, hc, rfl⟩
      exact .inr ⟨h, c, hc, rfl⟩
    · rintro (he | ⟨-, c, hc, rfl⟩)
      · exact absurd he (h vs)
      · exact ⟨c, hc, rfl⟩

theorem str?_eq_some_iff {v : Json} {t : String} : v.str? = some t ↔ v = .str t := by
  cases v <;> simp [str?]

theorem mem_iff_of_texts (htexts : vs.all (·.str?.isSome) = true) {v : Json} :
    v ∈ vs ↔ ∃ t ∈ vs.filterMap str?, v = .str t := by
  constructor
  · intro hv
    obtain ⟨t, ht⟩ := Option.isSome_iff_exists.mp (List.all_eq_true.mp htexts v hv)
    exact ⟨t, List.mem_filterMap.mpr ⟨v, hv, ht⟩, str?_eq_some_iff.mp ht⟩
  · rintro ⟨t, ht, rfl⟩
    obtain ⟨w, hw, hwt⟩ := List.mem_filterMap.mp ht
    rwa [← str?_eq_some_iff.mp hwt]

theorem exists_text_iff (htexts : vs.all (·.str?.isSome) = true) : vs.filterMap str? ≠ [] ↔ vs ≠ [] := by
  constructor
  · rintro hne rfl
    exact hne rfl
  · intro hne hnil
    obtain ⟨v, hv⟩ := List.exists_mem_of_ne_nil vs hne
    obtain ⟨t, ht, -⟩ := (mem_iff_of_texts htexts).mp hv
    exact List.ne_nil_of_mem ht hnil

/-- A shape that lists the texts which the reader has found is restricted to them unless list and fixed value disagree. -/
theorem restricts_iff_agrees (hvs : listedValues? fs = some vs) (htexts : vs.all (·.str?.isSome) = true)
    (hlisted : s.listed = vs.filterMap str?) : Restricts s fs ↔ Agrees fs := by
  unfold Restricts
  rw [hlisted, exists_text_iff htexts]
  simp only [← mem_iff_of_texts htexts]
  rcases listedValues?_eq_some_iff.mp hvs with henum | ⟨hno, c, hc, rfl⟩
  · constructor
    · rintro ⟨hne, hallows⟩ w hw
      cases henum.symm.trans hw
      refine ⟨vs, rfl, hne, ?_⟩
      intro c hc v hv
      exact ((hallows v).mpr hv).fixed c hc
    · intro hagrees
      obtain ⟨ws, hws, hne, hfixed⟩ := hagrees _ henum
      cases hws
      refine ⟨hne, fun v => ⟨fun h => ?_, fun hv => ⟨?_, fun c hc => hfixed c hc v hv⟩⟩⟩
      · obtain ⟨ws, hws, hv⟩ := h.listed _ henum
        cases hws
        exact hv
      · intro w hw
        cases henum.symm.trans hw
        exact ⟨vs, rfl, hv⟩
  -- without a list the fixed value is the only one; what stands in the place of a list allows nothing
  · constructor
    · rintro ⟨-, hallows⟩ w hw
      obtain ⟨ws, rfl, -⟩ := ((hallows c).mpr (List.mem_singleton_self c)).listed w hw
      exact absurd hw (hno ws)
    · intro hagrees
      refine ⟨List.cons_ne_nil _ _, fun v => ⟨fun h => List.mem_singleton.mpr (h.fixed c hc), fun hv => ⟨?_, ?_⟩⟩⟩
      · intro w hw
        obtain ⟨ws, rfl, -⟩ := hagrees w hw
        exact absurd hw (hno ws)
      · intro w hw
        cases hc.symm.trans hw
        exact List.mem_singleton.mp hv

theorem not_restricts (h : s.listed = []) : ¬ Restricts s fs := fun hr => hr.1 h

theorem not_agrees (h : listedValues? fs = none) (hkey : fs.has "enum" = true ∨ fs.has "const" = true) : ¬ Agrees fs := by
  intro hagrees
  unfold listedValues? at h
  split at h
  · cases h
  · next hno =>
    rw [Option.map_eq_none_iff] at h
    rcases hkey with henum | hconst
    · obtain ⟨w, hw⟩ := Option.isSome_iff_exists.mp henum
      obtain ⟨vs, rfl, -⟩ := hagrees w hw
      exact hno vs hw
    · rw [Fields.has, h] at hconst
      cases hconst

/-- A schema that lists or fixes values is read only if it is of no numeric type, and the values are texts if it is a string. -/
theorem Reads.of_listed {hint : Option String} {d : Bool} {type : String} (h : Reads document fs hint d s)
    (hs : Settled fs type) (hkey : fs.has "enum" = true ∨ fs.has "const" = true) :
    type ≠ "integer" ∧ type ≠ "number" ∧
      (type = "string" → ∀ vs, listedValues? fs = some vs → ∀ v ∈ vs, ∃ t, v = .str t) ∧
      (Restricts s fs ↔ type = "string" ∧ Agrees fs) := by
  have hother : ∀ {a : String}, Settled fs a → a ≠ "integer" ∧ a ≠ "number" ∧ a ≠ "string" → s.listed = [] →
      type ≠ "integer" ∧ type ≠ "number" ∧ (type = "string" → ∀ vs, listedValues? fs = some vs → ∀ v ∈ vs, ∃ t, v = .str t) ∧
        (Restricts s fs ↔ type = "string" ∧ Agrees fs) := by
    rintro a ha ⟨hi, hn, hstr⟩ hnil
    cases hs.type_eq ha
    exact ⟨hi, hn, fun h => absurd h hstr, fun h => absurd h (not_restricts hnil), fun h => absurd h.1 hstr⟩
  cases h with
  | definition hr => cases hr.symm.trans hs.reference
  | part _ ha => cases ha.symm.trans hs.parts
  | integer _ he hc | number _ he hc => simp [he, hc] at hkey
  | boolean hs' | array hs' | object hs' => exact hother hs' (by decide) rfl
  | string hs' h =>
    cases hs.type_eq hs'
    refine ⟨by decide, by decide, ?_⟩
    simp only [true_and, true_implies]
    cases h with
    | @enumeration vs hvs htexts | @values vs hvs htexts =>
      refine ⟨?_, restricts_iff_agrees hvs htexts rfl⟩
      intro ws hws v hv
      cases hvs.symm.trans hws
      obtain ⟨t, -, ht⟩ := (mem_iff_of_texts htexts).mp hv
      exact ⟨t, ht⟩
    | date hvs | guid hvs | text hvs =>
      refine ⟨?_, fun h => absurd h (not_restricts rfl), fun h => absurd h (not_agrees hvs hkey)⟩
      intro ws hws
      cases hvs.symm.trans hws

/-- In an accepted document, wherever a schema with `enum` or `const` is read, what is read is restricted to the values that both
allow exactly if its type is that of strings and the two agree. -/
theorem restricts_iff (h : (readDocument (.obj document)).outcome.1 = .ok s) (hp : Places document document pos os gs)
    (hkey : gs.has "enum" = true ∨ gs.has "const" = true) :
    ∃ n type, s.at? pos = some n ∧ Settled gs type ∧ type ≠ "integer" ∧ type ≠ "number" ∧
      (type = "string" → ∀ vs, listedValues? gs = some vs → ∀ v ∈ vs, ∃ t, v = .str t) ∧
      (Restricts n gs ↔ type = "string" ∧ Agrees gs) := by
  obtain ⟨n, hint, d, hn, hread⟩ := hp.exists_at (reads_document h)
  obtain ⟨type, hs⟩ := hp.settled
  exact ⟨n, type, hn, hs, hread.of_listed hs hkey⟩

/-- The only field of this record is an enumeration that a reference leads to. -/
def sizedDocument : Fields :=
  [("$defs", .obj [("Size", .obj [("enum", .arr [.str "S", .str "M"])])]),
    ("properties", .obj [("size", .obj [("$ref", .str "#/$defs/Size")])])]

theorem restricts_iff_sized :
    (readDocument (.obj sizedDocument)).outcome.1 = .ok (.object "object" [⟨"size", .enum "Size" ["S", "M"], none⟩]) ∧
    ∃ gs os, Places sizedDocument sizedDocument [.field 0] os gs ∧ (gs.has "enum" = true ∨ gs.has "const" = true) ∧
      ∃ n type, (Shape.object "object" [⟨"size", .enum "Size" ["S", "M"], none⟩]).at? [.field 0] = some n ∧ Settled gs type ∧
        type ≠ "integer" ∧ type ≠ "number" ∧
        (type = "string" → ∀ vs, listedValues? gs = some vs → ∀ v ∈ vs, ∃ t, v = .str t) ∧
        (Restricts n gs ↔ type = "string" ∧ Agrees gs) := by
  have h : (readDocument (.obj sizedDocument)).outcome.1 = .ok (.object "object" [⟨"size", .enum "Size" ["S", "M"], none⟩]) := by
    cbv
  have hp : Places sizedDocument sizedDocument [.field 0]
      [[("enum", .arr [.str "S", .str "M"])]] [("enum", .arr [.str "S", .str "M"])] := by
    have hs : Settled [("enum", .arr [.str "S", .str "M"])] "string" := ⟨rfl, rfl, rfl⟩
    refine .field .self ⟨rfl, rfl, rfl⟩ rfl (.here ?_ hs)
    exact .definition .self rfl (by cbv)
  exact ⟨h, _, _, hp, .inl rfl, restricts_iff h hp (.inl rfl)⟩

/-- A truth value that is fixed is read as any truth value. -/
theorem boolean_not_restricted :
    (readDocument (.obj [("type", .str "boolean"), ("const", .bool true)])).outcome.1 = .ok (.scalar .boolean "boolean") ∧
    Places [("type", .str "boolean"), ("const", .bool true)] [("type", .str "boolean"), ("const", .bool true)] []
      [[("type", .str "boolean"), ("const", .bool true)]] [("type", .str "boolean"), ("const", .bool true)] ∧
    Fields.has [("type", .str "boolean"), ("const", .bool true)] "const" = true ∧
    ¬ Restricts (.scalar .boolean "boolean") [("type", .str "boolean"), ("const", .bool true)] := by
  have hs : Settled [("type", .str "boolean"), ("const", .bool true)] "boolean" := ⟨rfl, rfl, rfl⟩
  exact ⟨by cbv, .here .self hs, rfl, not_restricts rfl⟩

end JsonSchema
end RecordGrammar
