import RecordGrammar.Proofs.JsonSchema.Places

/-!
# Bounds and where they are declared

A string or an array may be declared by several schemas: one that refers to a definition, the definition, its only part, the
part of that one. `bounds_declared`: nothing that is declared before the last reference counts, and of the schemas
from there on the one furthest in that declares a bound decides about it. So bounds are not intersected: an outer bound may
be tighter than that of the shape (`bounds_not_tightened`).
-/

namespace RecordGrammar.JsonSchema
open Json

/-- What the first of the schemas with a keyword holds under it; null, if none has it. -/
def declared (os : List Fields) (key : String) : Json := (os.findSome? fun o => o.get? key).getD .null

/-- The bounds of a string or an array are those that the schemas declare. -/
def HasDeclaredBounds (os : List Fields) : Shape → Prop
  | .string text =>
    boundOfJson "min_length" (declared os "minLength") = .ok text.minLength ∧
      boundOfJson "max_length" (declared os "maxLength") = .ok text.maxLength
  | .array _ lo hi _ =>
    boundOfJson "min_items" (declared os "minItems") = .ok lo ∧ boundOfJson "max_items" (declared os "maxItems") = .ok hi
  | _ => True

variable {document fs gs : Fields} {os : List Fields} {s n : Shape} {pos : Position} {hint : Option String} {d : Bool}

theorem Places.getD_get?_eq (hp : Places document fs pos os gs) (hdoc : (Json.obj document).hasDistinctKeys = true)
    (hfs : (Json.obj fs).hasDistinctKeys = true) {key : String} (hkey : key ≠ "allOf") :
    (gs.get? key).getD .null = declared os key := by
  obtain ⟨start, hstart, hc⟩ := hp.exists_combines hdoc hfs
  rw [declared, hc.get?_eq hdoc hstart hkey]

theorem Reads.hasDeclaredBounds (h : Reads document gs hint d n) (hs : ∃ type, Settled gs type)
    (hdeclared : ∀ key, key ≠ "allOf" → (gs.get? key).getD .null = declared os key)
    (hlisted : ∀ text, n = .string text → listedValues? gs = none) : HasDeclaredBounds os n := by
  obtain ⟨type, hs⟩ := hs
  cases h with
  | definition hr => cases hr.symm.trans hs.reference
  | part _ ha => cases ha.symm.trans hs.parts
  | integer | number | boolean | object => trivial
  | array _ _ _ hlo hhi =>
    rw [hdeclared _ (by decide)] at hlo hhi
    exact ⟨hlo, hhi⟩
  | string _ h =>
    cases h with
    | enumeration | date | guid => trivial
    | values hvs => cases hvs.symm.trans (hlisted _ rfl)
    | text _ _ hlo hhi =>
      rw [hdeclared _ (by decide)] at hlo hhi
      exact ⟨hlo, hhi⟩

/-- In an accepted document, every string and array has the bounds that the schemas it comes from declare, unless it lists its
values. -/
theorem bounds_declared (hdoc : (Json.obj document).hasDistinctKeys = true)
    (h : (readDocument (.obj document)).outcome.1 = .ok s) (hn : s.at? pos = some n) :
    (∃ os gs, Places document document pos os gs) ∧
      ∀ os gs, Places document document pos os gs → (∀ text, n = .string text → listedValues? gs = none) →
        HasDeclaredBounds os n := by
  constructor
  · obtain ⟨os, gs, _, _, hp, -⟩ := (reads_document h).exists_places hn
    exact ⟨os, gs, hp⟩
  · intro os gs hp hlisted
    obtain ⟨n', hint, d, hn', hread⟩ := hp.exists_at (reads_document h)
    cases hn.symm.trans hn'
    refine hread.hasDeclaredBounds hp.settled ?_ hlisted
    intro key hkey
    exact hp.getD_get?_eq hdoc hdoc hkey

/-- The bound beside the reference is dropped, and the one of the part replaces that of the definition. -/
def codedDocument : Fields :=
  [("$defs", .obj [("Code", .obj [("type", .str "string"), ("minLength", .int 2), ("maxLength", .int 8),
      ("allOf", .arr [.obj [("maxLength", .int 5)]])])]),
    ("properties", .obj [("code", .obj [("$ref", .str "#/$defs/Code"), ("maxLength", .int 3)])])]

theorem bounds_declared_code :
    (Json.obj codedDocument).hasDistinctKeys = true ∧
    (readDocument (.obj codedDocument)).outcome.1 =
      .ok (.object "object" [⟨"code", .string { minLength := some 2, maxLength := some 5 }, none⟩]) ∧
    (Shape.object "object" [⟨"code", .string { minLength := some 2, maxLength := some 5 }, none⟩]).at? [.field 0] =
      some (.string { minLength := some 2, maxLength := some 5 }) ∧
    (∃ os gs, Places codedDocument codedDocument [.field 0] os gs) ∧
      ∀ os gs, Places codedDocument codedDocument [.field 0] os gs →
        (∀ text, Shape.string { minLength := some 2, maxLength := some 5 } = .string text → listedValues? gs = none) →
        HasDeclaredBounds os (.string { minLength := some 2, maxLength := some 5 }) := by
  have hdoc : (Json.obj codedDocument).hasDistinctKeys = true := by decide
  have h : (readDocument (.obj codedDocument)).outcome.1 =
      .ok (.object "object" [⟨"code", .string { minLength := some 2, maxLength := some 5 }, none⟩]) := by cbv
  have hn : (Shape.object "object" [⟨"code", .string { minLength := some 2, maxLength := some 5 }, none⟩]).at? [.field 0] =
      some (.string { minLength := some 2, maxLength := some 5 }) := by simp [Shape.at?]
  exact ⟨hdoc, h, hn, bounds_declared hdoc h hn⟩

/-- The schema allows three characters at most, its part five, and so does the shape. -/
def loosenedDocument : Fields :=
  [("type", .str "string"), ("maxLength", .int 3), ("allOf", .arr [.obj [("maxLength", .int 5)]])]

theorem bounds_not_tightened :
    (readDocument (.obj loosenedDocument)).outcome.1 = .ok (.string { maxLength := some 5 }) ∧
    ∃ os gs, Places loosenedDocument loosenedDocument [] os gs ∧ listedValues? gs = none ∧
      ∃ o ∈ os, ∃ bound : Int, o.get? "maxLength" = some (.int bound) ∧ ¬ (5 : Int) ≤ bound := by
  have hs : Settled (mergePart loosenedDocument [("maxLength", .int 5)]) "string" := ⟨by cbv, by cbv, by cbv⟩
  have hp : Places loosenedDocument loosenedDocument [] [[("maxLength", .int 5)], loosenedDocument]
      (mergePart loosenedDocument [("maxLength", .int 5)]) := .here (.part .self rfl rfl) hs
  exact ⟨by cbv, _, _, hp, by cbv, loosenedDocument, List.mem_cons_of_mem _ (List.mem_singleton_self _), 3, rfl, by decide⟩

end RecordGrammar.JsonSchema
