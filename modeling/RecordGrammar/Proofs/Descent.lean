import RecordGrammar.Proofs.JsonSchema.Descent
import RecordGrammar.Proofs.Model.Descent

/-!
# Both readers end where the cycle search finds nothing

A document and a family are both read down a graph: references lead to definitions, and fields to models. What is read is
no part of the source as it stands, since parts are merged and names are looked up, so no size bounds the way down.
`reading_ends_of_acyclic` says what does: the search has seen each reference and each model that reading comes to.
-/

namespace RecordGrammar
open Relation

/-- Where the search finds no cycle, the way down from a document and from a model ends, since it follows only references
and models that the search has followed, and reading comes to none of them twice. -/
theorem reading_ends_of_acyclic :
    (∀ document : Json.Fields, (Json.obj document).hasDistinctKeys = true → JsonSchema.findCycle document = .ok none →
      Acc (JsonSchema.EnteredFrom document) document ∧
      (∀ reference fs gs r, JsonSchema.resolve document reference = .ok (.obj fs) →
        ReflTransGen JsonSchema.Opens fs gs → gs.text? "$ref" = some r → r ∈ JsonSchema.references (.obj fs)) ∧
      ∀ names, (JsonSchema.readValid document).outcome.1 ≠ .error (.cyclic names)) ∧
    ∀ (family : Family) (root : String), family.findCycle root = none →
      Acc family.EnteredFrom root ∧
      (∀ a b, family.Enters a b → b ∈ family.referencesOf a) ∧
      ∀ names, (family.read root).outcome.1 ≠ .error (.cyclic names) := by
  refine ⟨fun document hkeys hcycle => ⟨JsonSchema.acc_document hkeys hcycle, ?_, ?_⟩,
    fun family root hcycle => ⟨?_, fun a b h => h.mem_referencesOf, ?_⟩⟩
  · intro reference fs gs r hfs hopens hr
    have hdistinct := JsonSchema.hasDistinctKeys_of_resolve hkeys hfs
    exact (JsonSchema.references_subset_of_opens hopens hdistinct).2 (JsonSchema.mem_references_iff.mpr (.inl hr))
  · exact fun names h => JsonSchema.avoids_readValid hkeys hcycle [] _ h trivial
  · exact Family.acc_of_grounded (Family.findCycle_eq_none_iff.mp hcycle)
  · exact fun names h => Family.avoids_read hcycle [] _ h trivial

/-- A document whose only part refers to the first of two definitions in a chain, and a family of two models. -/
theorem reading_ends_of_acyclic_chain :
    (∃ document, JsonSchema.findCycle document = .ok none ∧ document.text? "$ref" = none ∧
      JsonSchema.references (.obj document) = ["#/$defs/A"] ∧ Acc (JsonSchema.EnteredFrom document) document) ∧
    ∃ family : Family, family.findCycle "A" = none ∧ family.referencesOf "A" = ["B"] ∧ Acc family.EnteredFrom "A" := by
  refine ⟨⟨[("$defs", .obj [("A", .obj [("properties", .obj [("b", .obj [("$ref", .str "#/$defs/B")])])]),
      ("B", .obj [("type", .str "string")])]), ("allOf", .arr [.obj [("$ref", .str "#/$defs/A")]])], ?_⟩,
    ⟨"m", [⟨"A", none, [{ name := "b", type := .array .list (.model "B") }]⟩, ⟨"B", none, []⟩]⟩, ?_⟩
  · refine ⟨by cbv, by decide, by cbv, ?_⟩
    exact (reading_ends_of_acyclic.1 _ (by decide) (by cbv)).1
  · refine ⟨by cbv, by cbv, ?_⟩
    exact (reading_ends_of_acyclic.2 _ "A" (by cbv)).1

end RecordGrammar
