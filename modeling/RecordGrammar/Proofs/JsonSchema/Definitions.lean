import RecordGrammar.JsonSchema.Reference
import RecordGrammar.Proofs.Json.Fields
import RecordGrammar.Proofs.Text.Split

/-!
# References to definitions

The reference `#/$defs/` with a name leads to the definition of that name, and the name can be read off it.
-/

namespace RecordGrammar.JsonSchema
open Json

variable {document : Fields} {name : String} {v : Json}

/-- The reference to the definition of that name. -/
abbrev definitionReference (name : String) : String := "#/$defs/" ++ name

theorem toList_definitionReference : (definitionReference name).toList = "#/$defs/".toList ++ name.toList :=
  String.toList_append

theorem definitionReference_ne_root : definitionReference name ≠ rootReference := by
  intro h
  have hlength := congrArg (·.toList.length) h
  simp only [toList_definitionReference, List.length_append] at hlength
  have htable : "#/$defs/".toList.length = 8 := rfl
  have hroot : rootReference.toList.length = 1 := rfl
  omega

theorem dropStart?_definitionReference : Text.dropStart? "#/$defs/" (definitionReference name) = some name := by
  have h := Text.dropStart?_append "#/$defs/" name.toList
  rwa [← toList_definitionReference, String.ofList_toList, String.ofList_toList] at h

theorem resolve_definitionReference (h : (document.fieldsAt "$defs").get? name = some v) :
    resolve document (definitionReference name) = .ok v := by
  unfold resolve
  rw [if_neg definitionReference_ne_root, definitionTables, List.findSome?_cons, dropStart?_definitionReference]
  dsimp only [Option.map_some]
  rw [h]

/-- A name without a slash is what stands behind the last one. -/
theorem referenceName_definitionReference (h : '/' ∉ name.toList) : referenceName (definitionReference name) = name := by
  unfold referenceName Text.afterLast
  rw [toList_definitionReference, List.reverse_append, List.takeWhile_append_of_pos]
  · show String.ofList (name.toList.reverse ++ List.takeWhile _ ['/', 's', 'f', 'e', 'd', '$', '/', '#']).reverse = name
    rw [List.takeWhile_cons_of_neg (by simp), List.append_nil, List.reverse_reverse, String.ofList_toList]
  · intro c hc
    rw [decide_eq_true_eq]
    exact fun he => h (he ▸ List.mem_reverse.mp hc)

end RecordGrammar.JsonSchema
