import Mathlib
import RecordGrammar.Json.Basic

/-!
# Fields of JSON objects

What a field holds once others have been erased, set or merged in. An object that has been read from a text holds each
key once (`hasDistinctKeys`); only then does a merger hold for each key what the merged object holds for it.
-/

namespace RecordGrammar.Json

mutual

/-- Whether no object in the value holds a key twice. -/
def hasDistinctKeys : Json → Bool
  | arr vs => elementsHaveDistinctKeys vs
  | obj fs => decide (fs.map (·.1)).Nodup && fieldsHaveDistinctKeys fs
  | _ => true

def elementsHaveDistinctKeys : List Json → Bool
  | [] => true
  | v :: vs => hasDistinctKeys v && elementsHaveDistinctKeys vs

def fieldsHaveDistinctKeys : List (String × Json) → Bool
  | [] => true
  | (_, v) :: fs => hasDistinctKeys v && fieldsHaveDistinctKeys fs

end

theorem elementsHaveDistinctKeys_iff {vs : List Json} :
    elementsHaveDistinctKeys vs = true ↔ ∀ v ∈ vs, v.hasDistinctKeys = true := by
  induction vs with
  | nil => simp [elementsHaveDistinctKeys]
  | cons v vs ih => simp [elementsHaveDistinctKeys, ih]

theorem fieldsHaveDistinctKeys_iff {fs : Fields} :
    fieldsHaveDistinctKeys fs = true ↔ ∀ f ∈ fs, f.2.hasDistinctKeys = true := by
  induction fs with
  | nil => simp [fieldsHaveDistinctKeys]
  | cons f fs ih =>
    obtain ⟨k, v⟩ := f
    simp [fieldsHaveDistinctKeys, ih]

theorem hasDistinctKeys_arr {vs : List Json} :
    (arr vs).hasDistinctKeys = true ↔ ∀ v ∈ vs, v.hasDistinctKeys = true := by
  rw [hasDistinctKeys, elementsHaveDistinctKeys_iff]

theorem hasDistinctKeys_obj {fs : Fields} :
    (obj fs).hasDistinctKeys = true ↔ (fs.map (·.1)).Nodup ∧ ∀ f ∈ fs, f.2.hasDistinctKeys = true := by
  rw [hasDistinctKeys, Bool.and_eq_true, decide_eq_true_eq, fieldsHaveDistinctKeys_iff]

namespace Fields
variable {fs new : Fields} {key k : String} {v w : Json}

theorem get?_nil : get? [] k = none := rfl

theorem get?_cons : get? ((key, v) :: fs) k = if k = key then some v else get? fs k := by
  unfold get?
  rw [List.lookup_cons]
  by_cases h : k = key
  · rw [if_pos h, beq_iff_eq.mpr h]
  · rw [if_neg h, beq_eq_false_iff_ne.mpr h]

theorem mem_of_get? (h : fs.get? key = some v) : (key, v) ∈ fs := by
  induction fs with
  | nil => cases h
  | cons f fs ih =>
    obtain ⟨k, w⟩ := f
    rw [get?_cons] at h
    by_cases hk : key = k
    · rw [if_pos hk] at h
      cases h
      exact hk ▸ List.mem_cons_self
    · rw [if_neg hk] at h
      exact List.mem_cons_of_mem _ (ih h)

theorem get?_eq_none_iff : fs.get? key = none ↔ key ∉ fs.map (·.1) := by
  induction fs with
  | nil => simp [get?_nil]
  | cons f fs ih =>
    obtain ⟨k, w⟩ := f
    rw [get?_cons, List.map_cons, List.mem_cons, not_or, ← ih]
    by_cases hk : key = k
    · simp [hk]
    · simp [hk]

/-- Where each key is held once, every field is found under its key. -/
theorem get?_of_mem (hkeys : (fs.map (·.1)).Nodup) (h : (key, v) ∈ fs) : fs.get? key = some v := by
  induction fs with
  | nil => cases h
  | cons f fs ih =>
    obtain ⟨k, w⟩ := f
    obtain ⟨hk, hkeys⟩ := List.nodup_cons.mp hkeys
    rw [get?_cons]
    rcases List.mem_cons.mp h with he | h
    · cases he
      rw [if_pos rfl]
    · have hne : key ≠ k := fun he => hk (List.mem_map.mpr ⟨(key, v), h, he⟩)
      rw [if_neg hne, ih hkeys h]

theorem get?_set : (fs.set key v).get? k = if k = key then some v else fs.get? k := by
  induction fs with
  | nil => rw [set, get?_cons]
  | cons f fs ih =>
    obtain ⟨l, w⟩ := f
    rw [set]
    by_cases hl : l = key
    · subst hl
      rw [if_pos (beq_self_eq_true l), get?_cons, get?_cons]
      by_cases hk : k = l
      · rw [if_pos hk, if_pos hk]
      · rw [if_neg hk, if_neg hk, if_neg hk]
    · rw [if_neg (by simpa using hl), get?_cons, get?_cons, ih]
      by_cases hk : k = l
      · subst hk
        rw [if_pos rfl, if_neg hl, if_pos rfl]
      · rw [if_neg hk, if_neg hk]

theorem get?_filter {p : String → Bool} : get? (fs.filter fun f => p f.1) k = if p k then fs.get? k else none := by
  induction fs with
  | nil => rw [List.filter_nil, get?_nil, ite_self]
  | cons f fs ih =>
    obtain ⟨l, w⟩ := f
    rw [List.filter_cons, get?_cons]
    by_cases hk : k = l
    · subst hk
      by_cases hp : p k = true
      · rw [if_pos hp, if_pos hp, if_pos rfl, get?_cons, if_pos rfl]
      · rw [if_neg hp, if_neg hp, ih, if_neg hp]
    · rw [if_neg hk, ← ih]
      split
      · rw [get?_cons, if_neg hk]
      · rfl

theorem get?_erase : (fs.erase key).get? k = if k = key then none else fs.get? k := by
  rw [erase, @get?_filter fs k (· != key)]
  by_cases hk : k = key
  · simp [hk]
  · simp [hk]

theorem text?_of_none (h : fs.get? key = none) : fs.text? key = none := by
  unfold text?
  rw [h]
  rfl

theorem text?_of_str {s : String} (h : fs.get? key = some (.str s)) : fs.text? key = some s := by
  unfold text?
  rw [h]
  rfl

theorem fieldsAt_of_obj {gs : Fields} (h : fs.get? key = some (.obj gs)) : fs.fieldsAt key = gs := by
  unfold fieldsAt
  rw [h]
  rfl

theorem fieldsAt_of_ne_obj (h : ∀ gs, fs.get? key ≠ some (.obj gs)) : fs.fieldsAt key = [] := by
  unfold fieldsAt
  cases hv : fs.get? key with
  | none => rfl
  | some v =>
    cases v with
    | obj gs => exact absurd hv (h gs)
    | null | bool | int | float | str | arr => rfl

theorem mem_fieldsAt_iff {f : String × Json} : f ∈ fs.fieldsAt key ↔ ∃ gs, fs.get? key = some (.obj gs) ∧ f ∈ gs := by
  unfold fieldsAt
  rcases fs.get? key with _ | (_ | _ | _ | _ | _ | _ | gs) <;> simp [obj?]

theorem merge_cons : fs.merge ((key, v) :: new) = (fs.set key v).merge new := rfl

theorem get?_merge (hkeys : (new.map (·.1)).Nodup) : (fs.merge new).get? k = (new.get? k).or (fs.get? k) := by
  induction new generalizing fs with
  | nil => rfl
  | cons f new ih =>
    obtain ⟨l, w⟩ := f
    obtain ⟨hl, hkeys⟩ := List.nodup_cons.mp hkeys
    rw [merge_cons, ih hkeys, get?_set, get?_cons]
    by_cases hk : k = l
    · subst hk
      rw [if_pos rfl, if_pos rfl, get?_eq_none_iff.mpr hl]
      rfl
    · rw [if_neg hk, if_neg hk]

/-- What the object holds under a key is held by one of the two others. -/
def Mixes (fs gs hs : Fields) : Prop :=
  ∀ ⦃k : String⦄ ⦃v : Json⦄, fs.get? k = some v → gs.get? k = some v ∨ hs.get? k = some v

theorem mixes_merge (hkeys : (new.map (·.1)).Nodup) : (fs.merge new).Mixes new fs := by
  intro k v h
  rw [get?_merge hkeys] at h
  exact (Option.or_eq_some_iff.mp h).imp_right And.right

theorem mixes_set : (fs.set key v).Mixes [(key, v)] fs := by
  have hkeys : (([(key, v)] : Fields).map (·.1)).Nodup := List.nodup_singleton key
  exact mixes_merge hkeys

theorem get?_append : (fs ++ new).get? k = (fs.get? k).or (new.get? k) := List.lookup_append

/-- Where all that is merged in under a key is alike, the merger holds it. -/
theorem get?_merge_of_mem (hnew : ∀ w, (k, w) ∈ new → w = v) (h : (k, v) ∈ new ∨ fs.get? k = some v) :
    (fs.merge new).get? k = some v := by
  induction new generalizing fs with
  | nil => exact h.resolve_left List.not_mem_nil
  | cons f new ih =>
    obtain ⟨l, w⟩ := f
    rw [merge_cons]
    refine ih (fun u hu => hnew u (List.mem_cons_of_mem _ hu)) ?_
    rw [get?_set]
    by_cases hl : k = l
    · subst hl
      rw [if_pos rfl, hnew w List.mem_cons_self]
      exact .inr rfl
    · rw [if_neg hl]
      refine h.imp_left fun h => (List.mem_cons.mp h).resolve_left fun he => hl ?_
      cases he
      rfl

theorem set_of_notMem (h : key ∉ fs.map (·.1)) : fs.set key v = fs ++ [(key, v)] := by
  induction fs with
  | nil => rfl
  | cons f fs ih =>
    obtain ⟨l, w⟩ := f
    rw [List.map_cons, List.mem_cons, not_or] at h
    rw [set, if_neg (by simpa using Ne.symm h.1), ih h.2, List.cons_append]

theorem merge_eq_append (hkeys : ((fs ++ new).map (·.1)).Nodup) : fs.merge new = fs ++ new := by
  induction new generalizing fs with
  | nil => exact (List.append_nil fs).symm
  | cons f new ih =>
    obtain ⟨l, w⟩ := f
    have hl : l ∉ fs.map (·.1) := by
      rw [List.map_append, List.nodup_append] at hkeys
      exact fun h => hkeys.2.2 l h l List.mem_cons_self rfl
    rw [merge_cons, set_of_notMem hl, ih, List.append_assoc]
    · rfl
    · rw [List.append_assoc]
      exact hkeys

/-! ### Keys -/

theorem nodup_nil : (([] : Fields).map (·.1)).Nodup := List.nodup_nil

theorem nodup_set (hkeys : (fs.map (·.1)).Nodup) : ((fs.set key v).map (·.1)).Nodup := by
  induction fs with
  | nil => simp [set]
  | cons f fs ih =>
    obtain ⟨l, w⟩ := f
    obtain ⟨hl, hkeys⟩ := List.nodup_cons.mp hkeys
    rw [set]
    by_cases he : l = key
    · rw [if_pos (by simpa using he)]
      exact List.nodup_cons.mpr ⟨hl, hkeys⟩
    · rw [if_neg (by simpa using he)]
      refine List.nodup_cons.mpr ⟨fun hmem => hl ?_, ih hkeys⟩
      rw [← Decidable.not_not (p := l ∈ fs.map (·.1)), ← get?_eq_none_iff]
      rw [← Decidable.not_not (p := l ∈ (set fs key v).map (·.1)), ← get?_eq_none_iff, get?_set, if_neg he] at hmem
      exact hmem

theorem nodup_merge (hkeys : (fs.map (·.1)).Nodup) : ((fs.merge new).map (·.1)).Nodup := by
  induction new generalizing fs with
  | nil => exact hkeys
  | cons f new ih => exact ih (nodup_set hkeys)

theorem nodup_erase (hkeys : (fs.map (·.1)).Nodup) : ((fs.erase key).map (·.1)).Nodup :=
  hkeys.sublist ((List.filter_sublist).map _)

theorem mem_set {f : String × Json} (h : f ∈ fs.set key v) : f = (key, v) ∨ f ∈ fs := by
  induction fs with
  | nil => exact .inl (List.mem_singleton.mp h)
  | cons g fs ih =>
    obtain ⟨l, w⟩ := g
    rw [set] at h
    split at h
    · next he =>
      rw [beq_iff_eq] at he
      rcases List.mem_cons.mp h with rfl | h
      · exact .inl (he ▸ rfl)
      · exact .inr (List.mem_cons_of_mem _ h)
    · rcases List.mem_cons.mp h with rfl | h
      · exact .inr List.mem_cons_self
      · exact (ih h).imp_right (List.mem_cons_of_mem _)

theorem mem_merge {f : String × Json} (h : f ∈ fs.merge new) : f ∈ new ∨ f ∈ fs := by
  induction new generalizing fs with
  | nil => exact .inr h
  | cons g new ih =>
    rcases ih h with h | h
    · exact .inl (List.mem_cons_of_mem _ h)
    · rcases mem_set h with rfl | h
      · exact .inl List.mem_cons_self
      · exact .inr h

end Fields

end RecordGrammar.Json
