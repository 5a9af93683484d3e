import RecordGrammar.Proofs.Model.Descent
import RecordGrammar.Proofs.Model.Plain

/-!
# The definitions of a document

A document holds, as definitions, the models and enumerations that its model mentions, directly or through others.
In a plain family all classes have names of their own, so each name leads to what it names
(`get?_definitions_model`, `get?_definitions_enumeration`), and nothing else is defined (`mem_entries_of_mem_definitions`).
-/

namespace RecordGrammar
open Json Relation RecordGrammar.Cycle

namespace Family

/-- The enumerations that the models of a family mention. -/
def enumerations (family : Family) : List (String × List Json) :=
  family.models.flatMap fun m => m.fields.flatMap (·.type.enumerations)

/-- All types are plain, and no name stands for two things. Names of classes are neither empty nor do they have a slash. -/
structure IsPlain (family : Family) : Prop where
  named : ∀ name ∈ family.names, name ≠ "" ∧ '/' ∉ name.toList
  fields : ∀ m ∈ family.models, ∀ f ∈ m.fields, f.type.isPlain f.constraints = true
  keys : ∀ m ∈ family.models, (m.fields.map (·.key)).Nodup
  known : ∀ m ∈ family.models, m.references ⊆ family.names
  enumerations : ∀ e ∈ family.enumerations, e.1 ≠ "" ∧ e.1 ∉ family.names ∧
    ∀ e' ∈ family.enumerations, e'.1 = e.1 → e' = e

variable {family : Family} {root a b : String} {m n : Model} {v : Json}

theorem mem_models_of_find? (h : family.find? a = some m) : m ∈ family.models := List.mem_of_find?_eq_some h

/-- The walk lists only models that can be reached from those still to be visited. -/
theorem reach_of_mem_walk {fresh pending : List String} (h : m ∈ family.walk fresh pending) :
    family.find? m.name = some m ∧ ∃ a ∈ pending, ReflTransGen (Edge family.mentions) a m.name := by
  fun_induction family.walk fresh pending with
  | case1 => cases h
  | case2 fresh name pending _ n hn ih =>
    rcases List.mem_cons.mp h with rfl | h
    · rw [name_of_find? hn]
      exact ⟨hn, name, List.mem_cons_self, .refl⟩
    · obtain ⟨hm, b, hb, hr⟩ := ih h
      refine ⟨hm, ?_⟩
      rcases List.mem_append.mp hb with hb | hb
      · have hedge : Edge family.mentions name b := edge_mentions_iff.mpr (referencesOf_of_find? hn ▸ hb)
        exact ⟨name, List.mem_cons_self, hr.head hedge⟩
      · exact ⟨b, List.mem_cons_of_mem _ hb, hr⟩
  | case3 fresh name pending _ _ ih =>
    obtain ⟨hm, b, hb, hr⟩ := ih h
    exact ⟨hm, b, List.mem_cons_of_mem _ hb, hr⟩
  | case4 fresh name pending _ ih =>
    obtain ⟨hm, b, hb, hr⟩ := ih h
    exact ⟨hm, b, List.mem_cons_of_mem _ hb, hr⟩

theorem mem_reachable_iff : m ∈ family.reachable root ↔
    family.find? m.name = some m ∧ ReflTransGen (Edge family.mentions) root m.name := by
  refine ⟨fun h => ?_, fun h => mem_reachable h.2 h.1⟩
  obtain ⟨hm, a, ha, hr⟩ := reach_of_mem_walk h
  rw [List.mem_singleton.mp ha] at hr
  exact ⟨hm, hr⟩

/-! ### Definitions -/

/-- The definitions of a document before those of the same name are merged. -/
def entries (family : Family) (root : String) : Fields :=
  let models := family.reachable root
  (models.filter fun m => models.any (·.references.contains m.name)).map (fun m => (m.name, .obj m.schema)) ++
    (models.flatMap fun m => m.fields.flatMap (·.type.enumerations)).map fun e => (e.1, .obj (enumerationSchema e.1 e.2))

theorem definitions_eq : family.definitions root = Fields.merge [] (family.entries root) := rfl

theorem nodup_definitions : ((family.definitions root).map (·.1)).Nodup := Fields.nodup_merge Fields.nodup_nil

/-- What is defined is a model that a reachable one mentions, or an enumeration of a reachable one. -/
theorem mem_entries_iff : (a, v) ∈ family.entries root ↔
    (∃ m ∈ family.reachable root, m.name = a ∧ .obj m.schema = v ∧ ∃ n ∈ family.reachable root, a ∈ n.references) ∨
      ∃ n ∈ family.reachable root, ∃ e ∈ n.fields.flatMap (·.type.enumerations),
        e.1 = a ∧ .obj (enumerationSchema e.1 e.2) = v := by
  unfold entries
  rw [List.mem_append, List.mem_map, List.mem_map]
  refine or_congr ⟨?_, ?_⟩ ⟨?_, ?_⟩
  · rintro ⟨m, hm, he⟩
    cases he
    obtain ⟨hm, hany⟩ := List.mem_filter.mp hm
    obtain ⟨n, hn, hmem⟩ := List.any_eq_true.mp hany
    exact ⟨m, hm, rfl, rfl, n, hn, List.contains_iff_mem.mp hmem⟩
  · rintro ⟨m, hm, rfl, rfl, n, hn, hmem⟩
    have hany : (family.reachable root).any (·.references.contains m.name) = true :=
      List.any_eq_true.mpr ⟨n, hn, List.contains_iff_mem.mpr hmem⟩
    exact ⟨m, List.mem_filter.mpr ⟨hm, hany⟩, rfl⟩
  · rintro ⟨e, he, heq⟩
    cases heq
    obtain ⟨n, hn, he⟩ := List.mem_flatMap.mp he
    exact ⟨n, hn, e, he, rfl, rfl⟩
  · rintro ⟨n, hn, e, he, rfl, rfl⟩
    exact ⟨e, List.mem_flatMap.mpr ⟨n, hn, he⟩, rfl⟩

theorem mem_entries_of_mem_definitions (h : (a, v) ∈ family.definitions root) : (a, v) ∈ family.entries root :=
  (Fields.mem_merge (definitions_eq ▸ h)).resolve_right List.not_mem_nil

theorem mem_enumerations {e : String × List Json} (hn : n ∈ family.reachable root)
    (he : e ∈ n.fields.flatMap (·.type.enumerations)) : e ∈ family.enumerations :=
  List.mem_flatMap.mpr ⟨n, mem_models_of_find? (mem_reachable_iff.mp hn).1, he⟩

section
variable (h : family.IsPlain) (hn : n ∈ family.reachable root)
include h hn

theorem get?_definitions_model (hb : b ∈ n.references) (hm : family.find? b = some m) :
    (family.definitions root).get? b = some (.obj m.schema) := by
  cases name_of_find? hm
  have hreach : m ∈ family.reachable root := by
    obtain ⟨hfind, hr⟩ := mem_reachable_iff.mp hn
    exact mem_reachable_iff.mpr ⟨hm, hr.tail (edge_mentions_iff.mpr (referencesOf_of_find? hfind ▸ hb))⟩
  rw [definitions_eq]
  refine Fields.get?_merge_of_mem (fun w hw => ?_) (.inl (mem_entries_iff.mpr (.inl ⟨m, hreach, rfl, rfl, n, hn, hb⟩)))
  rcases mem_entries_iff.mp hw with ⟨m', hm', hname, rfl, -⟩ | ⟨n', hn', e, he, hname, rfl⟩
  · have hfind := (mem_reachable_iff.mp hm').1
    rw [hname, hm] at hfind
    cases hfind
    rfl
  · have hclass := (h.enumerations e (mem_enumerations hn' he)).2.1
    exact absurd (hname ▸ mem_names_of_find? hm) hclass

theorem get?_definitions_enumeration {e : String × List Json} (he : e ∈ n.fields.flatMap (·.type.enumerations)) :
    (family.definitions root).get? e.1 = some (.obj (enumerationSchema e.1 e.2)) := by
  obtain ⟨-, hclass, hsame⟩ := h.enumerations e (mem_enumerations hn he)
  rw [definitions_eq]
  refine Fields.get?_merge_of_mem (fun w hw => ?_) (.inl (mem_entries_iff.mpr (.inr ⟨n, hn, e, he, rfl, rfl⟩)))
  rcases mem_entries_iff.mp hw with ⟨m', hm', hname, rfl, -⟩ | ⟨n', hn', e', he', hname, rfl⟩
  · exact absurd (hname ▸ mem_names_of_find? (mem_reachable_iff.mp hm').1) hclass
  · rw [hsame e' (mem_enumerations hn' he') hname]

end

end Family
end RecordGrammar
