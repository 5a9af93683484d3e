import RecordGrammar.Model.Read
import RecordGrammar.Proofs.Cycle
import RecordGrammar.Proofs.Reporting

/-!
# Reading a family without cycles ends

`family.Enters a b`: reading the model `a` reads the model `b` next. All models that a type lets reading enter are among
those it mentions (`FieldType.Reads.mem_models`), so the cycle search, which follows what is mentioned, has seen all that
reading enters: once it has found nothing, reading ends (`acc_of_grounded`) and enters no model twice on the way down
(`avoids_read`).

That every model met has been looked for by name first rests on the walk: it lists all models that can be reached
(`mem_walk`), so a family without an undefined name has all that reading asks for.
-/

namespace RecordGrammar
open Relation RecordGrammar.Cycle Reporting

/-- Reading a type reads the model of that name. -/
inductive FieldType.Reads : FieldType → String → Prop
  | model {name : String} : Reads (.model name) name
  | array {spelling : ArraySpelling} {t : FieldType} {name : String} (h : Reads t name) : Reads (.array spelling t) name
  | annotated {t : FieldType} {c : Constraints} {name : String} (h : Reads t name) : Reads (.annotated t c) name

theorem FieldType.Reads.mem_models {t : FieldType} {name : String} (h : t.Reads name) : name ∈ t.models := by
  induction h with
  | model => exact List.mem_singleton_self _
  | array _ ih => exact ih
  | annotated _ ih => exact ih

namespace Family

variable {family : Family} {a b root : String} {m : Model}

/-- The models that a model mentions, as the cycle search asks for them. -/
abbrev mentions (family : Family) (name : String) : Except Empty (List String) := .ok (family.referencesOf name)

theorem edge_mentions_iff : Edge family.mentions a b ↔ b ∈ family.referencesOf a := by
  refine ⟨fun ⟨ws, h, hb⟩ => ?_, fun h => ⟨_, rfl, h⟩⟩
  cases h
  exact hb

theorem mem_references_iff : b ∈ m.references ↔ ∃ f ∈ m.fields, b ∈ f.type.models := by
  unfold Model.references
  rw [List.mem_eraseDups, List.mem_flatMap]

theorem referencesOf_of_find? (h : family.find? a = some m) : family.referencesOf a = m.references := by
  unfold referencesOf
  rw [h]
  rfl

theorem referencesOf_of_undefined (h : family.find? a = none) : family.referencesOf a = [] := by
  unfold referencesOf
  rw [h]
  rfl

theorem name_of_find? (h : family.find? a = some m) : m.name = a :=
  eq_of_beq (List.find?_some (p := fun n : Model => n.name == a) h)

theorem mem_names_of_find? (h : family.find? a = some m) : a ∈ family.names :=
  List.mem_map.mpr ⟨m, List.mem_of_find?_eq_some h, name_of_find? h⟩

theorem exists_find?_of_mem_names (h : a ∈ family.names) : ∃ m, family.find? a = some m := by
  obtain ⟨m, hm, ha⟩ := List.mem_map.mp h
  exact Option.isSome_iff_exists.mp (List.find?_isSome.mpr ⟨m, hm, beq_iff_eq.mpr ha⟩)

/-- A model mentions the name of a model, or one that stands for nothing. -/
theorem mem_names_or_grounded (b : String) : b ∈ family.names ∨ Grounded family.mentions b := by
  rcases h : family.find? b with _ | m
  · refine .inr (.intro rfl fun w hw => ?_)
    rw [referencesOf_of_undefined h] at hw
    cases hw
  · exact .inl (mem_names_of_find? h)

/-- The search finds no cycle just if every chain of models that mention one another ends. -/
theorem findCycle_eq_none_iff : family.findCycle root = none ↔ Grounded family.mentions root := by
  rw [← find_eq_none_iff (fun _ b _ => mem_names_or_grounded b)]
  unfold findCycle
  split
  · next cycle h =>
    rw [h]
    exact Except.ok.injEq _ _ ▸ Iff.rfl
  · next e h => nomatch e

/-! ### What reading enters -/

/-- Reading the first model reads the second one next. -/
def Enters (family : Family) (a b : String) : Prop := ∃ m, family.find? a = some m ∧ ∃ f ∈ m.fields, f.type.Reads b

abbrev EnteredFrom (family : Family) (b a : String) : Prop := family.Enters a b

theorem Enters.mem_referencesOf (h : family.Enters a b) : b ∈ family.referencesOf a := by
  obtain ⟨m, hm, f, hf, hb⟩ := h
  rw [referencesOf_of_find? hm]
  exact mem_references_iff.mpr ⟨f, hf, hb.mem_models⟩

theorem acc_of_grounded (h : Grounded family.mentions a) : Acc family.EnteredFrom a := by
  induction h with
  | intro ha _ ih =>
    cases ha
    exact Acc.intro _ fun b hb => ih b hb.mem_referencesOf

/-! ### The walk over all models that can be reached -/

/-- Only a model of the family mentions others. -/
theorem mem_names_of_edge (h : Edge family.mentions a b) : a ∈ family.names := by
  rcases ha : family.find? a with _ | m
  · rw [edge_mentions_iff, referencesOf_of_undefined ha] at h
    cases h
  · exact mem_names_of_find? ha

theorem mem_names_of_reach (hr : ReflTransGen (Edge family.mentions) a b) (hb : family.find? b = some m) :
    a ∈ family.names := by
  rcases hr.cases_head with rfl | ⟨c, hac, -⟩
  · exact mem_names_of_find? hb
  · exact mem_names_of_edge hac

/-- The next name to be visited is let go if it is visited already. -/
theorem mem_or_mem_of_gone {x name : String} {visited pending : List String} (h : x ∈ visited ∨ x ∈ name :: pending)
    (hgone : x = name → x ∈ visited) : x ∈ visited ∨ x ∈ pending := by
  rcases h with h | h
  · exact .inl h
  · rcases List.mem_cons.mp h with he | h
    · exact .inl (hgone he)
    · exact .inr h

/-- The next name to be visited is visited, and what it mentions is still to be. -/
theorem mem_or_mem_of_visit {x name : String} {visited pending : List String} (mentioned : List String)
    (h : x ∈ visited ∨ x ∈ name :: pending) : x ∈ name :: visited ∨ x ∈ mentioned ++ pending := by
  rcases h with h | h
  · exact .inl (List.mem_cons_of_mem _ h)
  · rcases List.mem_cons.mp h with rfl | h
    · exact .inl List.mem_cons_self
    · exact .inr (List.mem_append_right _ h)

/-- The walk lists all models that can be reached from those still to be visited, if what a visited one mentions is
visited or still to be. -/
theorem mem_walk {fresh pending visited : List String} (hseen : ∀ v ∈ family.names, v ∈ fresh ∨ v ∈ visited)
    (hclosed : ∀ v ∈ visited, ∀ w ∈ family.names, Edge family.mentions v w → w ∈ visited ∨ w ∈ pending)
    (ha : a ∈ visited ∨ a ∈ pending) (hr : ReflTransGen (Edge family.mentions) a b) (hb : family.find? b = some m) :
    b ∈ visited ∨ m ∈ family.walk fresh pending := by
  fun_induction family.walk fresh pending generalizing a visited with
  | case1 fresh =>
    induction hr using ReflTransGen.head_induction_on with
    | refl => exact .inl (ha.resolve_right List.not_mem_nil)
    | head hac hcb ih =>
      exact ih (hclosed _ (ha.resolve_right List.not_mem_nil) _ (mem_names_of_reach hcb hb) hac)
  | case2 fresh name pending hname n hn ih =>
    have hseen' : ∀ v ∈ family.names, v ∈ fresh.erase name ∨ v ∈ name :: visited := by
      intro v hv
      by_cases he : v = name
      · exact .inr (he ▸ List.mem_cons_self)
      · exact (hseen v hv).imp (List.mem_erase_of_ne he).mpr (List.mem_cons_of_mem _)
    have hclosed' : ∀ v ∈ name :: visited, ∀ w ∈ family.names, Edge family.mentions v w →
        w ∈ name :: visited ∨ w ∈ n.references ++ pending := by
      intro v hv w hw hvw
      rcases List.mem_cons.mp hv with rfl | hv
      · rw [edge_mentions_iff, referencesOf_of_find? hn] at hvw
        exact .inr (List.mem_append_left _ hvw)
      · exact mem_or_mem_of_visit n.references (hclosed v hv w hw hvw)
    rcases ih hseen' hclosed' (mem_or_mem_of_visit n.references ha) hr with h | h
    · rcases List.mem_cons.mp h with rfl | h
      · rw [hn] at hb
        cases hb
        exact .inr List.mem_cons_self
      · exact .inl h
    · exact .inr (List.mem_cons_of_mem _ h)
  | case3 fresh name pending hname hn ih =>
    have hgone : name ∈ family.names → name ∈ visited := by
      intro h
      obtain ⟨n, hn'⟩ := exists_find?_of_mem_names h
      rw [hn] at hn'
      cases hn'
    exact ih hseen (fun v hv w hw hvw => mem_or_mem_of_gone (hclosed v hv w hw hvw) fun h => h ▸ hgone (h ▸ hw))
      (mem_or_mem_of_gone ha fun h => h ▸ hgone (h ▸ mem_names_of_reach hr hb)) hr
  | case4 fresh name pending hname ih =>
    have hgone : name ∈ family.names → name ∈ visited := fun h => (hseen name h).resolve_left hname
    exact ih hseen (fun v hv w hw hvw => mem_or_mem_of_gone (hclosed v hv w hw hvw) fun h => h ▸ hgone (h ▸ hw))
      (mem_or_mem_of_gone ha fun h => h ▸ hgone (h ▸ mem_names_of_reach hr hb)) hr

/-- The models that a model depends on are all that it mentions, directly or through others. -/
theorem mem_reachable (hr : ReflTransGen (Edge family.mentions) root b) (hb : family.find? b = some m) :
    m ∈ family.reachable root := by
  have h : b ∈ ([] : List String) ∨ m ∈ family.walk family.names.eraseDups [root] :=
    mem_walk (fun v hv => .inl (List.mem_eraseDups.mpr hv)) nofun (.inr (List.mem_singleton_self root)) hr hb
  exact h.resolve_left List.not_mem_nil

/-- If no name is undefined, then all have models that are met on the way from a model. -/
theorem mem_names_of_undefined?_eq_none (hroot : root ∈ family.names) (h : family.undefined? root = none)
    (hr : ReflTransGen (Edge family.mentions) root b) : b ∈ family.names := by
  rcases hr.cases_tail with rfl | ⟨a, hra, hab⟩
  · exact hroot
  · obtain ⟨m, hm⟩ := exists_find?_of_mem_names (mem_names_of_edge hab)
    have hb : b ∈ (family.reachable root).flatMap (·.references) := by
      refine List.mem_flatMap.mpr ⟨m, mem_reachable hra hm, ?_⟩
      rw [← referencesOf_of_find? hm]
      exact edge_mentions_iff.mp hab
    have hdefined : ¬ (family.find? b).isNone = true := List.find?_eq_none.mp h b hb
    rcases hn : family.find? b with _ | n
    · rw [hn] at hdefined
      exact absurd rfl hdefined
    · exact mem_names_of_find? hn

/-! ### Reading -/

def IsCyclic : ModelError → Prop
  | .cyclic _ => True
  | _ => False

variable {fresh : List String}

theorem avoids_readBasic (t : BasicType) (c : Constraints) : Avoids IsCyclic (readBasic t c) := by
  cases t with
  | text | integer | float | decimal | boolean | dateTime | guid => exact avoids_pure _
  | date | time | bytes | anything | nothing | table | list => exact avoids_throw id

theorem avoids_readType (c : Constraints) : ∀ (t : FieldType) (_ : ∀ name, t.Reads name → name ∈ fresh ∧
      ∀ m, family.find? name = some m → Avoids IsCyclic (family.readModel (fresh.erase name) m)),
    Avoids IsCyclic (family.readType fresh c t)
  | .array _ t, h => by
    rw [readType]
    exact (avoids_readType {} t fun name hn => h name (.array hn)).bind fun _ => avoids_pure _
  | .annotated t inner, h => by
    rw [readType]
    exact avoids_readType _ t fun name hn => h name (.annotated hn)
  | .model name, h => by
    obtain ⟨hfresh, hm⟩ := h name .model
    rw [readType, if_pos hfresh]
    split
    · next m hfind => exact hm m hfind
    · exact avoids_throw id
  | .basic t, _ => by
    rw [readType]
    exact avoids_readBasic t c
  | .literal vs, _ | .enumeration name vs, _ => by
    rw [readType]
    split
    · exact avoids_pure _
    · exact avoids_throw id
  | .bareArray, _ | .set _, _ | .tuple _, _ | .map _ _, _ | .union _, _ => by
    rw [readType]
    exact avoids_throw id

theorem avoids_readFields {fs : List ModelField} (h : ∀ f ∈ fs, ∀ name, f.type.Reads name → name ∈ fresh ∧
      ∀ m, family.find? name = some m → Avoids IsCyclic (family.readModel (fresh.erase name) m)) :
    Avoids IsCyclic (family.readFields fresh fs) := by
  induction fs with
  | nil =>
    rw [readFields]
    exact avoids_pure _
  | cons f fs ih =>
    rw [readFields]
    refine (avoids_readType f.constraints f.type (h f List.mem_cons_self)).bind fun type => ?_
    exact (ih fun g hg => h g (List.mem_cons_of_mem _ hg)).bind fun _ => avoids_pure _

/-- Where no model that a model mentions leads back, reading it enters no model again. -/
theorem avoids_readModel (hacc : Acc family.EnteredFrom a) (hm : family.find? a = some m)
    (hfresh : ∀ b ∈ m.references, Covered family.mentions fresh b) : Avoids IsCyclic (family.readModel fresh m) := by
  induction hacc generalizing fresh m with
  | intro a _ ih =>
    rw [readModel]
    refine (avoids_readFields fun f hf b hb => ?_).bind fun _ => (avoids_report _).bind fun _ => avoids_pure _
    have hcovered := hfresh b (mem_references_iff.mpr ⟨f, hf, hb.mem_models⟩)
    refine ⟨hcovered.mem b .refl, fun n hn => ih b ⟨m, hm, f, hf, hb⟩ hn fun c hc => ?_⟩
    exact hcovered.next (edge_mentions_iff.mpr (referencesOf_of_find? hn ▸ hc))

/-- Where the search finds no cycle and all names are known, what a model mentions leads on to models of the family only,
and to an end. -/
theorem covered_of_findCycle (hm : family.find? root = some m) (hundefined : family.undefined? root = none)
    (hcycle : family.findCycle root = none) (hb : b ∈ m.references) :
    Covered family.mentions (family.names.erase root) b := by
  have hedge : Edge family.mentions root b := edge_mentions_iff.mpr (referencesOf_of_find? hm ▸ hb)
  have hall : Covered family.mentions family.names root :=
    ⟨findCycle_eq_none_iff.mp hcycle, fun c hc => mem_names_of_undefined?_eq_none (mem_names_of_find? hm) hundefined hc⟩
  exact hall.next hedge

/-- Once the search has found no cycle, reading a family enters no model twice on the way down. -/
theorem avoids_read (hcycle : family.findCycle root = none) : Avoids IsCyclic (family.read root) := by
  unfold read
  split
  · exact avoids_throw id
  · next m hm =>
    rcases hundefined : family.undefined? root with _ | name
    · rw [hcycle]
      exact avoids_readModel (acc_of_grounded (findCycle_eq_none_iff.mp hcycle)) hm fun b hb =>
        covered_of_findCycle hm hundefined hcycle hb
    · exact avoids_throw id

end Family
end RecordGrammar
