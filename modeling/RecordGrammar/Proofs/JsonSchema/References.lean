import RecordGrammar.JsonSchema.Read
import RecordGrammar.Proofs.Json.Fields

/-!
# References of a schema and of what it is read as

`Opens fs gs`: reading the schema `fs` reads `gs` without following a reference. `Opens.references_subset`: the references
of `gs` are among those of `fs`. So `references` misses none that reading a definition comes to, however often parts are
merged into the schema around them.
-/

namespace RecordGrammar.JsonSchema
open Json Relation

variable {document fs gs hs part : Fields} {v : Json} {r : String}

/-- Reading the first schema reads the second one, which stands in it or is a merger of it with its only part. -/
inductive Opens : Fields → Fields → Prop
  | part {fs part : Fields} (hr : fs.text? "$ref" = none) (h : fs.get? "allOf" = some (.arr [.obj part])) :
    Opens fs (mergePart fs part)
  | property {fs properties gs : Fields} {name : String} (hr : fs.text? "$ref" = none) (ha : fs.get? "allOf" = none)
    (h : fs.get? "properties" = some (.obj properties)) (hg : (name, .obj gs) ∈ properties) : Opens fs gs
  | items {fs gs : Fields} (hr : fs.text? "$ref" = none) (ha : fs.get? "allOf" = none)
    (h : fs.get? "items" = some (.obj gs)) : Opens fs gs

/-! ### Children and references -/

theorem mem_children_iff : v ∈ children fs ↔
    (∃ properties, fs.get? "properties" = some (.obj properties) ∧ ∃ name, (name, v) ∈ properties) ∨
      (∃ gs, fs.get? "items" = some (.obj gs) ∧ v = .obj gs) ∨ ∃ vs, fs.get? "allOf" = some (.arr vs) ∧ v ∈ vs := by
  have hproperties : v ∈ (fs.fieldsAt "properties").map (·.2) ↔
      ∃ properties, fs.get? "properties" = some (.obj properties) ∧ ∃ name, (name, v) ∈ properties := by
    unfold Fields.fieldsAt
    rcases fs.get? "properties" with _ | (_ | _ | _ | _ | _ | _ | ps) <;> simp [obj?]
  have hparts : v ∈ fs.elementsAt "allOf" ↔ ∃ vs, fs.get? "allOf" = some (.arr vs) ∧ v ∈ vs := by
    unfold Fields.elementsAt
    rcases fs.get? "allOf" with _ | (_ | _ | _ | _ | _ | vs | _) <;> simp [arr?]
  rw [children, List.mem_append, List.mem_append]
  refine (or_congr (or_congr hproperties ?_) hparts).trans or_assoc
  rcases fs.get? "items" with _ | (_ | _ | _ | _ | _ | _ | gs) <;> simp

theorem mem_references_iff :
    r ∈ references (.obj fs) ↔ fs.text? "$ref" = some r ∨ ∃ v ∈ children fs, r ∈ references v := by
  rw [references, List.mem_append, Option.mem_toList, List.mem_flatMap]
  refine or_congr Iff.rfl ⟨?_, ?_⟩
  · rintro ⟨⟨v, hv⟩, -, h⟩
    exact ⟨v, hv, h⟩
  · rintro ⟨v, hv, h⟩
    exact ⟨⟨v, hv⟩, List.mem_attach _ _, h⟩

theorem references_subset_of_mem_children (hv : v ∈ children fs) : references v ⊆ references (.obj fs) :=
  fun _ hr => mem_references_iff.mpr (.inr ⟨v, hv, hr⟩)

/-! ### Mergers -/

theorem children_of_mixes (h : fs.Mixes gs hs) (hv : v ∈ children fs) : v ∈ children gs ∨ v ∈ children hs := by
  rw [mem_children_iff, mem_children_iff]
  rcases mem_children_iff.mp hv with ⟨ps, hp, hmem⟩ | ⟨is, hi, he⟩ | ⟨vs, ha, hmem⟩
  · exact (h hp).imp (fun hp => .inl ⟨ps, hp, hmem⟩) fun hp => .inl ⟨ps, hp, hmem⟩
  · exact (h hi).imp (fun hi => .inr (.inl ⟨is, hi, he⟩)) fun hi => .inr (.inl ⟨is, hi, he⟩)
  · exact (h ha).imp (fun ha => .inr (.inr ⟨vs, ha, hmem⟩)) fun ha => .inr (.inr ⟨vs, ha, hmem⟩)

theorem references_of_mixes (h : fs.Mixes gs hs) (hr : r ∈ references (.obj fs)) :
    r ∈ references (.obj gs) ∨ r ∈ references (.obj hs) := by
  rcases mem_references_iff.mp hr with hr | ⟨v, hv, hr⟩
  · obtain ⟨w, hw, hwr⟩ := Option.bind_eq_some_iff.mp hr
    have htext : ∀ {o : Fields}, o.get? "$ref" = some w → r ∈ references (.obj o) := fun hw =>
      mem_references_iff.mpr (.inl (Option.bind_eq_some_iff.mpr ⟨w, hw, hwr⟩))
    exact (h hw).imp htext htext
  · have hchild : ∀ {o : Fields}, v ∈ children o → r ∈ references (.obj o) := fun hv =>
      references_subset_of_mem_children hv hr
    exact (children_of_mixes h hv).imp hchild hchild

/-- A merger holds what one of the two schemas holds. -/
theorem mixes_mergePart (hkeys : (part.map (·.1)).Nodup) : (mergePart fs part).Mixes part fs := by
  intro key v h
  refine (Fields.mixes_merge hkeys h).imp_right fun h => ?_
  rw [Fields.get?_erase] at h
  split at h
  · cases h
  · exact h

theorem references_mergePart (hkeys : (part.map (·.1)).Nodup) (hpart : .obj part ∈ children fs) :
    references (.obj (mergePart fs part)) ⊆ references (.obj fs) := fun _ hr =>
  (references_of_mixes (mixes_mergePart hkeys) hr).elim (fun hr => references_subset_of_mem_children hpart hr) id

/-! ### Distinct keys -/

theorem hasDistinctKeys_of_mem_children (hkeys : (Json.obj fs).hasDistinctKeys = true) (hv : v ∈ children fs) :
    v.hasDistinctKeys = true := by
  have hfields := (hasDistinctKeys_obj.mp hkeys).2
  rcases mem_children_iff.mp hv with ⟨ps, h, name, hmem⟩ | ⟨gs, h, rfl⟩ | ⟨vs, h, hmem⟩
  · exact (hasDistinctKeys_obj.mp (hfields _ (Fields.mem_of_get? h))).2 _ hmem
  · exact hfields _ (Fields.mem_of_get? h)
  · exact hasDistinctKeys_arr.mp (hfields _ (Fields.mem_of_get? h)) v hmem

theorem hasDistinctKeys_mergePart (hkeys : (Json.obj fs).hasDistinctKeys = true)
    (hpart : (Json.obj part).hasDistinctKeys = true) : (Json.obj (mergePart fs part)).hasDistinctKeys = true := by
  obtain ⟨hnodup, hfields⟩ := hasDistinctKeys_obj.mp hkeys
  refine hasDistinctKeys_obj.mpr ⟨Fields.nodup_merge (Fields.nodup_erase hnodup), fun f hf => ?_⟩
  rcases Fields.mem_merge hf with hf | hf
  · exact (hasDistinctKeys_obj.mp hpart).2 f hf
  · exact hfields f (List.mem_of_mem_filter hf)

namespace Opens

/-- What is opened is a child of the schema, or the merger with a child. -/
theorem child (h : Opens fs gs) : .obj gs ∈ children fs ∨ ∃ part, .obj part ∈ children fs ∧ gs = mergePart fs part := by
  cases h with
  | part hr h => exact .inr ⟨_, mem_children_iff.mpr (.inr (.inr ⟨_, h, List.mem_singleton_self _⟩)), rfl⟩
  | property hr ha h hg => exact .inl (mem_children_iff.mpr (.inl ⟨_, h, _, hg⟩))
  | items hr ha h => exact .inl (mem_children_iff.mpr (.inr (.inl ⟨_, h, rfl⟩)))

theorem hasDistinctKeys (h : Opens fs gs) (hkeys : (Json.obj fs).hasDistinctKeys = true) :
    (Json.obj gs).hasDistinctKeys = true := by
  rcases h.child with hc | ⟨part, hc, rfl⟩
  · exact hasDistinctKeys_of_mem_children hkeys hc
  · exact hasDistinctKeys_mergePart hkeys (hasDistinctKeys_of_mem_children hkeys hc)

theorem references_subset (h : Opens fs gs) (hkeys : (Json.obj fs).hasDistinctKeys = true) :
    references (.obj gs) ⊆ references (.obj fs) := by
  rcases h.child with hc | ⟨part, hc, rfl⟩
  · exact references_subset_of_mem_children hc
  · have hpart := hasDistinctKeys_of_mem_children hkeys hc
    exact references_mergePart (hasDistinctKeys_obj.mp hpart).1 hc

theorem size_lt (h : Opens fs gs) : sizeFields gs < sizeFields fs := by
  cases h with
  | part hr h => exact sizeFields_mergePart_lt h
  | property hr ha h hg =>
    have hp := Fields.size_lt_of_get? h
    have hg := size_lt_of_mem_fields hg
    simp only [size] at hp hg
    omega
  | items hr ha h =>
    have hp := Fields.size_lt_of_get? h
    simp only [size] at hp
    omega

end Opens

/-- Reading follows one of the references that are left, or goes on with what the schema opens. -/
theorem reading_induction {motive : List String → Fields → Prop}
    (step : ∀ fresh fs, (∀ r ∈ fresh, ∀ target, motive (fresh.erase r) target) → (∀ gs, Opens fs gs → motive fresh gs) →
      motive fresh fs) (fresh : List String) (fs : Fields) : motive fresh fs := by
  -- each reference leaves fewer to follow, and between two of them the schemas get smaller
  induction hn : fresh.length using Nat.strong_induction_on generalizing fresh fs with
  | _ n ihfresh =>
  induction hm : sizeFields fs using Nat.strong_induction_on generalizing fs with
  | _ m ihsize =>
  refine step fresh fs (fun r hr target => ?_) fun gs hg => ihsize _ (hm ▸ hg.size_lt) gs rfl
  have := List.length_erase_of_mem hr
  have := List.length_pos_of_mem hr
  exact ihfresh _ (by omega) (fresh.erase r) target rfl

/-- However far a definition is opened, each reference that comes up is one of the definition's. -/
theorem references_subset_of_opens (h : ReflTransGen Opens fs gs) (hkeys : (Json.obj fs).hasDistinctKeys = true) :
    (Json.obj gs).hasDistinctKeys = true ∧ references (.obj gs) ⊆ references (.obj fs) := by
  induction h with
  | refl => exact ⟨hkeys, fun _ h => h⟩
  | tail _ h ih => exact ⟨h.hasDistinctKeys ih.1, fun r hr => ih.2 (h.references_subset ih.1 hr)⟩

end RecordGrammar.JsonSchema
