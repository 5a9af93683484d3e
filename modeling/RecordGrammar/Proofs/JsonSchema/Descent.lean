import RecordGrammar.Proofs.Cycle
import RecordGrammar.Proofs.JsonSchema.Stops

/-!
# Reading a document without cycles ends

`Enters document fs gs`: reading the schema `fs` reads `gs` next. Once the cycle search has found nothing, no chain of schemas
that enter one another goes on for ever (`acc_document`), and reading never comes to a reference that it has followed
before (`avoids_readValid`). Both rest on the references of a definition: those of the schemas that it opens are among
them, so the search has seen every reference that reading follows.
-/

namespace RecordGrammar.JsonSchema
open Json Relation RecordGrammar.Cycle Reporting

variable {document fs gs target : Fields} {fresh : List String} {v : Json} {r s : String}

/-- The references of the schema that a reference leads to. -/
abbrev referencesAt (document : Fields) (reference : String) : Except SchemaError (List String) := do
  return references (← resolve document reference)

theorem edge_iff : Edge (referencesAt document) r s ↔ ∃ v, resolve document r = .ok v ∧ s ∈ references v := by
  unfold Edge referencesAt
  cases h : resolve document r with
  | error e =>
    refine ⟨?_, ?_⟩
    · rintro ⟨ws, h, -⟩
      cases h
    · rintro ⟨v, h, -⟩
      cases h
  | ok v =>
    refine ⟨?_, ?_⟩
    · rintro ⟨ws, h, hs⟩
      cases h
      exact ⟨v, rfl, hs⟩
    · rintro ⟨w, h, hs⟩
      cases h
      exact ⟨_, rfl, hs⟩

theorem grounded_iff (hr : resolve document r = .ok v) :
    Grounded (referencesAt document) r ↔ ∀ s ∈ references v, Grounded (referencesAt document) s := by
  have hsuccessors : referencesAt document r = .ok (references v) := by
    unfold referencesAt
    rw [hr]
    rfl
  exact ⟨fun hg s hs => hg.edge ⟨_, hsuccessors, hs⟩, fun hg => .intro hsuccessors hg⟩

/-! ### All references of a document -/

theorem textsUnder_subset_elements {key : String} {vs : List Json} (hv : v ∈ vs) :
    textsUnder key v ⊆ textsUnderElements key vs := by
  induction vs with
  | nil => cases hv
  | cons w vs ih =>
    rw [textsUnderElements]
    rcases List.mem_cons.mp hv with rfl | hv
    · exact List.subset_append_left _ _
    · exact List.Subset.trans (ih hv) (List.subset_append_right _ _)

theorem textsUnder_subset_fields {key name : String} (hv : (name, v) ∈ fs) :
    textsUnder key v ⊆ textsUnderFields key fs := by
  induction fs with
  | nil => cases hv
  | cons f fs ih =>
    obtain ⟨k, w⟩ := f
    rw [textsUnderFields]
    rcases List.mem_cons.mp hv with he | hv
    · cases he
      exact List.Subset.trans (List.subset_append_right _ _) (List.subset_append_left _ _)
    · exact List.Subset.trans (ih hv) (List.subset_append_right _ _)

theorem mem_textsUnderFields_of_text? {key : String} (h : fs.text? key = some s) : s ∈ textsUnderFields key fs := by
  obtain ⟨w, hw, hs⟩ := Option.bind_eq_some_iff.mp h
  have hmem := Fields.mem_of_get? hw
  clear h hw
  induction fs with
  | nil => cases hmem
  | cons f fs ih =>
    obtain ⟨k, u⟩ := f
    rw [textsUnderFields]
    rcases List.mem_cons.mp hmem with he | hmem
    · cases he
      rw [if_pos rfl, hs]
      exact List.mem_append_left _ (List.mem_append_left _ (List.mem_singleton_self s))
    · exact List.mem_append_right _ (ih hmem)

theorem textsUnder_subset_of_mem_children {key : String} (hv : v ∈ children fs) :
    textsUnder key v ⊆ textsUnderFields key fs := by
  rcases mem_children_iff.mp hv with ⟨ps, h, name, hmem⟩ | ⟨gs, h, rfl⟩ | ⟨vs, h, hmem⟩
  · exact List.Subset.trans (textsUnder_subset_fields hmem) (textsUnder_subset_fields (v := .obj ps) (Fields.mem_of_get? h))
  · exact textsUnder_subset_fields (Fields.mem_of_get? h)
  · exact List.Subset.trans (textsUnder_subset_elements hmem) (textsUnder_subset_fields (v := .arr vs) (Fields.mem_of_get? h))

theorem references_subset_textsUnder (v : Json) : references v ⊆ textsUnder "$ref" v := by
  induction hn : v.size using Nat.strong_induction_on generalizing v with
  | _ n ih =>
    cases v with
    | obj fs =>
      intro r hr
      rw [textsUnder]
      rcases mem_references_iff.mp hr with hr | ⟨w, hw, hr⟩
      · exact mem_textsUnderFields_of_text? hr
      · have hlt : w.size < n := by
          have := size_lt_of_mem_children hw
          simp only [size] at hn
          omega
        exact textsUnder_subset_of_mem_children hw (ih w.size hlt w rfl hr)
    | null | bool | int | float | str | arr =>
      rw [references]
      · exact List.nil_subset _
      · intro fs h
        cases h

/-- What a reference leads to is the document or one of its definitions. -/
theorem resolve_cases (h : resolve document r = .ok v) : v = .obj document ∨
    ∃ table ∈ definitionTables.map (·.2), ∃ name, (document.fieldsAt table).get? name = some v := by
  unfold resolve at h
  split at h
  · cases h
    exact .inl rfl
  · split at h
    · next table name htable =>
      split at h
      · next w hw =>
        cases h
        obtain ⟨t, ht, htable⟩ := List.exists_of_findSome?_eq_some htable
        obtain ⟨_, -, he⟩ := Option.map_eq_some_iff.mp htable
        cases he
        exact .inr ⟨t.2, List.mem_map_of_mem ht, name, hw⟩
      · cases h
    · cases h

/-- The value of a field that holds an object with the given one in it. -/
theorem exists_of_get?_fieldsAt {table name : String} (h : (document.fieldsAt table).get? name = some v) :
    ∃ definitions, (table, .obj definitions) ∈ document ∧ (name, v) ∈ definitions := by
  obtain ⟨definitions, ht, hmem⟩ := Fields.mem_fieldsAt_iff.mp (Fields.mem_of_get? h)
  exact ⟨definitions, Fields.mem_of_get? ht, hmem⟩

theorem references_subset_allReferences (h : resolve document r = .ok v) : references v ⊆ allReferences document := by
  refine List.Subset.trans (references_subset_textsUnder v) (List.subset_cons_of_subset _ ?_)
  rcases resolve_cases h with rfl | ⟨table, -, name, h⟩
  · exact List.Subset.refl _
  · obtain ⟨definitions, hd, hv⟩ := exists_of_get?_fieldsAt h
    exact List.Subset.trans (textsUnder_subset_fields hv) (textsUnder_subset_fields (v := .obj definitions) hd)

theorem hasDistinctKeys_of_resolve (hkeys : (Json.obj document).hasDistinctKeys = true)
    (h : resolve document r = .ok v) : v.hasDistinctKeys = true := by
  rcases resolve_cases h with rfl | ⟨table, -, name, h⟩
  · exact hkeys
  · obtain ⟨definitions, hd, hv⟩ := exists_of_get?_fieldsAt h
    exact (hasDistinctKeys_obj.mp ((hasDistinctKeys_obj.mp hkeys).2 _ hd)).2 _ hv

/-- The search finds no cycle just if every chain of references from the document ends. -/
theorem findCycle_eq_none_iff :
    findCycle document = .ok none ↔ Grounded (referencesAt document) rootReference :=
  find_eq_none_iff fun _ _ he => by
    obtain ⟨v, hv, hs⟩ := edge_iff.mp he
    exact .inl (references_subset_allReferences hv hs)

/-! ### What reading enters -/

/-- Reading the first schema reads the second one next. -/
inductive Enters (document : Fields) : Fields → Fields → Prop
  | opens {fs gs : Fields} (h : Opens fs gs) : Enters document fs gs
  | follows {fs target : Fields} {r : String} (h : fs.text? "$ref" = some r)
    (hr : resolve document r = .ok (.obj target)) : Enters document fs target

abbrev EnteredFrom (document : Fields) (gs fs : Fields) : Prop := Enters document fs gs

/-- Reading a schema ends if reading all ends to which its references lead. -/
theorem acc_of_references (hkeys : (Json.obj fs).hasDistinctKeys = true)
    (hrefs : ∀ r ∈ references (.obj fs), ∀ target, resolve document r = .ok (.obj target) →
      Acc (EnteredFrom document) target) : Acc (EnteredFrom document) fs := by
  induction hn : sizeFields fs using Nat.strong_induction_on generalizing fs with
  | _ n ih =>
    refine Acc.intro fs fun gs h => ?_
    cases h with
    | opens h =>
      refine ih (sizeFields gs) (hn ▸ h.size_lt) (h.hasDistinctKeys hkeys) (fun r hr => ?_) rfl
      exact hrefs r (h.references_subset hkeys hr)
    | follows h hr => exact hrefs _ (mem_references_iff.mpr (.inl h)) gs hr

theorem acc_of_grounded (hkeys : (Json.obj document).hasDistinctKeys = true) (hg : Grounded (referencesAt document) r)
    (hr : resolve document r = .ok (.obj target)) : Acc (EnteredFrom document) target := by
  induction hg generalizing target with
  | intro h hws ih =>
    refine acc_of_references (hasDistinctKeys_of_resolve hkeys hr) fun s hs target' hs' => ih s ?_ hs'
    unfold referencesAt at h
    rw [hr] at h
    cases h
    exact hs

theorem acc_document (hkeys : (Json.obj document).hasDistinctKeys = true) (hcycle : findCycle document = .ok none) :
    Acc (EnteredFrom document) document :=
  acc_of_grounded hkeys (findCycle_eq_none_iff.mp hcycle) (if_pos rfl)

/-! ### Reading -/

def IsCyclic : SchemaError → Prop
  | .cyclic _ => True
  | _ => False

theorem typeOf_error {e : SchemaError} (h : typeOf fs = .error e) : e = .untyped (.obj fs) := by
  unfold typeOf at h
  repeat' split at h
  all_goals cases h
  all_goals rfl

theorem resolve_error {e : SchemaError} (h : resolve document r = .error e) : e = .unresolvable r := by
  unfold resolve at h
  repeat' split at h
  all_goals cases h
  all_goals rfl

/-- Where no reference of a schema leads back, reading it never comes to one that it has followed before. -/
theorem Stops.not_isCyclic {e : SchemaError} (h : Stops document fresh fs e) (hdoc : (Json.obj document).hasDistinctKeys = true)
    (hkeys : (Json.obj fs).hasDistinctKeys = true)
    (hfresh : ∀ r ∈ references (.obj fs), Covered (referencesAt document) fresh r) : ¬ IsCyclic e := by
  induction h with
  | here h =>
    cases h with
    | cyclic hr hnot => exact absurd ((hfresh _ (mem_references_iff.mpr (.inl hr))).mem _ .refl) hnot
    | reference _ he =>
      rw [resolve_error he]
      exact id
    | untyped he =>
      rw [typeOf_error he]
      exact id
    | definition | parts | property | element | bound | values | numeric | type => exact id
  | definition hr _ ht _ ih =>
    have hcovered := hfresh _ (mem_references_iff.mpr (.inl hr))
    exact ih (hasDistinctKeys_of_resolve hdoc ht) fun s hs => hcovered.next (edge_iff.mpr ⟨_, ht, hs⟩)
  | inner hr hc _ ih =>
    have hopens := hc.opens hr
    exact ih (hopens.hasDistinctKeys hkeys) fun r hr => hfresh r (hopens.references_subset hkeys hr)

/-- Where the search finds no cycle, the references of the document lead on to listed references only, and to an end. -/
theorem covered_of_findCycle (hcycle : findCycle document = .ok none) (hr : r ∈ references (.obj document)) :
    Covered (referencesAt document) (allReferences document) r := by
  have hroot : resolve document rootReference = .ok (.obj document) := if_pos rfl
  have hedge : Edge (referencesAt document) rootReference r := edge_iff.mpr ⟨_, hroot, hr⟩
  refine ⟨(findCycle_eq_none_iff.mp hcycle).edge hedge, fun s hs => ?_⟩
  rcases hs.cases_tail with rfl | ⟨q, -, hqs⟩
  · exact references_subset_allReferences hroot hr
  · obtain ⟨v, hv, hsv⟩ := edge_iff.mp hqs
    exact references_subset_allReferences hv hsv

/-- Once the search has found no cycle, reading a document does not come to a reference that it has followed before. -/
theorem avoids_readValid (hkeys : (Json.obj document).hasDistinctKeys = true) (hcycle : findCycle document = .ok none) :
    Avoids IsCyclic (readValid document) := by
  unfold readValid
  rw [hcycle]
  intro ns e he
  exact (stops_of_raises ⟨ns, he⟩).not_isCyclic hkeys hkeys fun r hr => covered_of_findCycle hcycle hr

end RecordGrammar.JsonSchema
