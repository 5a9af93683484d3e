import RecordGrammar.Proofs.JsonSchema.Descent
import RecordGrammar.Proofs.JsonSchema.Reading

/-!
# When a document gives a shape

`Reads.yields`: what a schema is read as, the reader yields, as long as every chain of references from the schema ends and stays
within those that it may still follow. So a document gives a shape just if it passes validation, its references do not lead in a
circle and it is read as the shape (`readDocument_eq_ok_iff`).
-/

namespace RecordGrammar.JsonSchema
open Json Reporting RecordGrammar.Cycle

variable {document : Fields}

mutual

theorem Reads.yields (hdoc : (Json.obj document).hasDistinctKeys = true) :
    ∀ {fs : Fields} {hint : Option String} {d : Bool} {s : Shape}, Reads document fs hint d s →
      ∀ {fresh : List String}, (Json.obj fs).hasDistinctKeys = true →
        (∀ r ∈ references (.obj fs), Covered (referencesAt document) fresh r) → Yields (readSchema document fresh fs hint d) s
  | _, _, _, _, .definition hr ht h, _, _, hrefs => by
    have hcovered := hrefs _ (mem_references_iff.mpr (.inl hr))
    have htarget := h.yields hdoc (hasDistinctKeys_of_resolve hdoc ht) fun q hq => hcovered.next (edge_iff.mpr ⟨_, ht, hq⟩)
    exact yields_ref hr (hcovered.mem _ .refl) ht htarget
  | _, _, _, _, .part hr ha h, _, hkeys, hrefs => by
    have ho := Opens.part hr ha
    exact yields_part hr ha (h.yields hdoc (ho.hasDistinctKeys hkeys) fun q hq => hrefs q (ho.references_subset hkeys hq))
  | _, _, _, _, .string hs h, _, _, _ => by
    rw [readSchema_string hs]
    exact yields_string h
  | _, _, _, _, .integer hs henum hconst, _, _, _ => by
    rw [readSchema_integer hs]
    exact yields_numeric henum hconst
  | _, _, _, _, .number hs henum hconst, _, _, _ => by
    rw [readSchema_number hs]
    exact yields_numeric henum hconst
  | _, _, _, _, .boolean hs, _, _, _ => by
    rw [readSchema_boolean hs]
    exact yields_pure _
  | _, _, _, _, .array hs hitems h hlo hhi, _, hkeys, hrefs => by
    have ho := Opens.items hs.reference hs.parts hitems
    have helement := h.yields hdoc (ho.hasDistinctKeys hkeys) fun q hq => hrefs q (ho.references_subset hkeys hq)
    exact yields_array hs hitems helement (yields_boundAt hlo) (yields_boundAt hhi)
  | _, _, _, _, .object hs h, _, hkeys, hrefs => by
    refine yields_object hs (h.yields hdoc fun name gs hmem => ?_)
    obtain ⟨properties, hp, hmem⟩ := Fields.mem_fieldsAt_iff.mp hmem
    have ho := Opens.property hs.reference hs.parts hp hmem
    exact ⟨ho.hasDistinctKeys hkeys, fun q hq => hrefs q (ho.references_subset hkeys hq)⟩

theorem ReadsFields.yields (hdoc : (Json.obj document).hasDistinctKeys = true) :
    ∀ {properties : Fields} {fields : List (Field Shape)}, ReadsFields document properties fields → ∀ {fresh : List String},
      (∀ name gs, (name, .obj gs) ∈ properties → (Json.obj gs).hasDistinctKeys = true ∧
        ∀ r ∈ references (.obj gs), Covered (referencesAt document) fresh r) →
      Yields (readProperties document fresh properties) fields
  | _, _, .nil, _, _ => by
    rw [readProperties]
    exact yields_pure _
  | _, _, .cons h hrest, _, hall => by
    obtain ⟨hkeys, hrefs⟩ := hall _ _ List.mem_cons_self
    exact yields_properties_cons (h.yields hdoc hkeys hrefs)
      (hrest.yields hdoc fun name gs hmem => hall name gs (List.mem_cons_of_mem _ hmem))

end

/-- A document that has been read as a shape has passed validation, and its references do not lead in a circle. -/
theorem readDocument_eq_ok_iff (hkeys : (Json.obj document).hasDistinctKeys = true) {s : Shape} :
    (readDocument (.obj document)).outcome.1 = .ok s ↔
      validate (.obj document) = .ok () ∧ findCycle document = .ok none ∧ Reads document document none false s := by
  constructor
  · intro h
    have hreads := reads_document h
    have h := gives_of_outcome h
    unfold readDocument readValid at h
    dsimp only at h
    split at h
    · exact absurd h not_gives_throw
    · next hvalid =>
      split at h
      · exact absurd h not_gives_throw
      · exact absurd h not_gives_throw
      · next hcycle => exact ⟨hvalid, hcycle, hreads⟩
  · rintro ⟨hvalid, hcycle, hreads⟩
    have hyields := hreads.yields hkeys hkeys fun r hr => covered_of_findCycle hcycle hr
    unfold readDocument readValid
    dsimp only
    rw [hvalid, hcycle]
    exact hyields.outcome

end RecordGrammar.JsonSchema
