import RecordGrammar.Proofs.JsonSchema.Validation

/-!
# The walk over the schemas of a document

`Leads v route w`: the schema `w` is met on the way `route` into `v`. The walk meets a schema before those in it, and these in
the order of the keywords and of the document (`Precedes`). `validate_outcome`: in a well-formed document of one of the
latest dialects the walk passes just if all schemas that it meets have support, and what it reports otherwise is what is wrong
with the first one that has none.
-/

namespace RecordGrammar.JsonSchema
open Json

/-- The keywords under which a schema holds others, in the order of the walk. -/
inductive Holder where
  | properties
  | items
  | allOf
  | defs
  | definitions
deriving DecidableEq

namespace Holder

def all : List Holder := [properties, items, allOf, defs, definitions]

def rank : Holder → Nat
  | properties => 0
  | items => 1
  | allOf => 2
  | defs => 3
  | definitions => 4

/-- The schemas that a schema holds under the keyword, in order. -/
def schemas (fs : Fields) : Holder → List Json
  | properties => (fs.fieldsAt "properties").map (·.2)
  | items => ((fs.get? "items").bind obj?).toList.map .obj
  | allOf => fs.elementsAt "allOf"
  | defs => (fs.fieldsAt "$defs").map (·.2)
  | definitions => (fs.fieldsAt "definitions").map (·.2)

theorem getElem?_all {i : Nat} {b : Holder} : all[i]? = some b ↔ i = b.rank := by
  unfold all
  constructor
  · intro h
    rcases i with _ | _ | _ | _ | _ | i <;> cases h <;> rfl
  · rintro rfl
    cases b <;> rfl

theorem rank_injective {a b : Holder} (h : a.rank = b.rank) : a = b := by
  have ha : all[a.rank]? = some a := getElem?_all.mpr rfl
  have hb : all[b.rank]? = some b := getElem?_all.mpr rfl
  rw [h, hb] at ha
  exact (Option.some.inj ha).symm

end Holder

/-- A way into a schema: at each step the keyword, and which of the schemas under it. -/
abbrev Route := List (Holder × Nat)

/-- The schema `v` is the one with that number under the keyword. -/
inductive Holds (fs : Fields) : Holder × Nat → Json → Prop
  | property {ps : Fields} {i : Nat} {name : String} {v : Json} (h : fs.get? "properties" = some (.obj ps))
    (hi : ps[i]? = some (name, v)) : Holds fs (.properties, i) v
  | items {gs : Fields} (h : fs.get? "items" = some (.obj gs)) : Holds fs (.items, 0) (.obj gs)
  | part {vs : List Json} {i : Nat} {v : Json} (h : fs.get? "allOf" = some (.arr vs)) (hi : vs[i]? = some v) :
    Holds fs (.allOf, i) v
  | definition {ds : Fields} {i : Nat} {name : String} {v : Json} (h : fs.get? "$defs" = some (.obj ds))
    (hi : ds[i]? = some (name, v)) : Holds fs (.defs, i) v
  | oldDefinition {ds : Fields} {i : Nat} {name : String} {v : Json} (h : fs.get? "definitions" = some (.obj ds))
    (hi : ds[i]? = some (name, v)) : Holds fs (.definitions, i) v

inductive Leads : Json → Route → Json → Prop
  | here {v : Json} : Leads v [] v
  | step {fs : Fields} {l : Holder × Nat} {v w : Json} {route : Route} (hl : Holds fs l v) (h : Leads v route w) :
    Leads (.obj fs) (l :: route) w

/-- The order of the schemas that a schema holds: by the keyword, then as they stand. -/
def Before (l l' : Holder × Nat) : Prop := l.1.rank < l'.1.rank ∨ l.1 = l'.1 ∧ l.2 < l'.2

/-- The order of the walk. A schema comes before all schemas in it. -/
def Precedes (route route' : Route) : Prop := List.Lex Before route route'

/-- The schema is an object that has none of the keywords without support, and names no type or a single one that has support. -/
def Supported (v : Json) : Prop :=
  ∃ fs : Fields, v = .obj fs ∧ (∀ key ∈ unsupportedKeywords, fs.get? key = none) ∧
    ∀ t, fs.get? "type" = some t → ∃ name ∈ supportedTypes, t = .str name

/-- What is wrong with a schema by itself: it is a truth value and no object, else its first keyword without support, else that
it names several types, else its type. -/
inductive Offends : Json → SchemaError → Prop
  | boolean {b : Bool} : Offends (.bool b) (.notASchema "bool")
  | keyword {fs : Fields} {before after : List String} {key : String} (hk : unsupportedKeywords = before ++ key :: after)
    (hbefore : ∀ k ∈ before, fs.get? k = none) (hkey : fs.get? key ≠ none) : Offends (.obj fs) (.unsupportedKeyword key)
  | types {fs : Fields} {ts : List Json} (hk : ∀ k ∈ unsupportedKeywords, fs.get? k = none)
    (ht : fs.get? "type" = some (.arr ts)) : Offends (.obj fs) (.severalTypes (.arr ts))
  | type {fs : Fields} {name : String} (hk : ∀ k ∈ unsupportedKeywords, fs.get? k = none)
    (ht : fs.get? "type" = some (.str name)) (hname : name ∉ supportedTypes) : Offends (.obj fs) (.unsupportedType (.str name))

variable {d : Dialect} {key : String} {fs : Fields} {v w w' : Json} {l : Holder × Nat} {route route' : Route} {e : SchemaError}

/-! ### Order -/

instance : Std.Trichotomous Before where
  trichotomous := by
    rintro ⟨a, i⟩ ⟨b, j⟩ h h'
    simp only [Before, not_or, not_and, Nat.not_lt] at h h'
    have hab : a = b := Holder.rank_injective (Nat.le_antisymm h'.1 h.1)
    have hij : i = j := Nat.le_antisymm (h'.2 hab.symm) (h.2 hab)
    rw [hab, hij]

/-- Of two ways one is first. -/
theorem precedes_trichotomy (route route' : Route) : Precedes route route' ∨ route = route' ∨ Precedes route' route :=
  trichotomous_of (List.Lex Before) route route'

theorem not_precedes_nil : ¬ Precedes route [] := by
  intro h
  cases h

/-! ### The schemas of a schema -/

theorem getElem?_fieldsAt {key : String} {i : Nat} : ((fs.fieldsAt key).map (·.2))[i]? = some v ↔
    ∃ gs name, fs.get? key = some (.obj gs) ∧ gs[i]? = some (name, v) := by
  unfold Fields.fieldsAt
  rcases fs.get? key with _ | (_ | _ | _ | _ | _ | _ | gs) <;> simp [obj?]

theorem getElem?_elementsAt {key : String} {i : Nat} : (fs.elementsAt key)[i]? = some v ↔
    ∃ vs, fs.get? key = some (.arr vs) ∧ vs[i]? = some v := by
  unfold Fields.elementsAt
  rcases fs.get? key with _ | (_ | _ | _ | _ | _ | vs | _) <;> simp [arr?]

theorem getElem?_items {i : Nat} : (Holder.items.schemas fs)[i]? = some v ↔
    ∃ gs, fs.get? "items" = some (.obj gs) ∧ i = 0 ∧ v = .obj gs := by
  unfold Holder.schemas
  rcases fs.get? "items" with _ | (_ | _ | _ | _ | _ | _ | gs) <;> simp [obj?, List.getElem?_singleton, eq_comm]

theorem holds_of_getElem? {b : Holder} {i : Nat} (h : (b.schemas fs)[i]? = some v) : Holds fs (b, i) v := by
  cases b with
  | properties =>
    obtain ⟨gs, name, hget, hi⟩ := getElem?_fieldsAt.mp h
    exact .property hget hi
  | items =>
    obtain ⟨gs, hget, rfl, rfl⟩ := getElem?_items.mp h
    exact .items hget
  | allOf =>
    obtain ⟨vs, hget, hi⟩ := getElem?_elementsAt.mp h
    exact .part hget hi
  | defs =>
    obtain ⟨gs, name, hget, hi⟩ := getElem?_fieldsAt.mp h
    exact .definition hget hi
  | definitions =>
    obtain ⟨gs, name, hget, hi⟩ := getElem?_fieldsAt.mp h
    exact .oldDefinition hget hi

theorem Holds.getElem? (h : Holds fs l v) : (l.1.schemas fs)[l.2]? = some v := by
  cases h with
  | property hget hi => exact getElem?_fieldsAt.mpr ⟨_, _, hget, hi⟩
  | items hget => exact getElem?_items.mpr ⟨_, hget, rfl, rfl⟩
  | part hget hi => exact getElem?_elementsAt.mpr ⟨_, hget, hi⟩
  | definition hget hi => exact getElem?_fieldsAt.mpr ⟨_, _, hget, hi⟩
  | oldDefinition hget hi => exact getElem?_fieldsAt.mpr ⟨_, _, hget, hi⟩

theorem Holds.det (h : Holds fs l v) (h' : Holds fs l w) : v = w := by
  have he := h.getElem?.symm.trans h'.getElem?
  cases he
  rfl

theorem Leads.det (h : Leads v route w) (h' : Leads v route w') : w = w' := by
  induction h with
  | here =>
    cases h'
    rfl
  | step hl _ ih =>
    cases h' with
    | step hl' h' =>
      cases hl.det hl'
      exact ih h'

theorem subschemas_eq : subschemas fs = Holder.all.flatMap (·.schemas fs) := by
  simp only [subschemas, children, Holder.all, Holder.schemas, List.flatMap_cons, List.flatMap_nil, List.append_nil,
    List.append_assoc]
  rcases fs.get? "items" with _ | (_ | _ | _ | _ | _ | _ | gs) <;> rfl

theorem mem_subschemas_iff : v ∈ subschemas fs ↔ ∃ l, Holds fs l v := by
  rw [subschemas_eq, List.mem_flatMap]
  constructor
  · rintro ⟨b, -, hv⟩
    obtain ⟨i, hi⟩ := List.mem_iff_getElem?.mp hv
    exact ⟨(b, i), holds_of_getElem? hi⟩
  · rintro ⟨⟨b, i⟩, h⟩
    exact ⟨b, List.mem_of_getElem? (Holder.getElem?_all.mpr rfl), List.mem_of_getElem? h.getElem?⟩

theorem Holds.of_mixes {gs hs : Fields} (hmix : fs.Mixes gs hs) (h : Holds fs l v) : Holds gs l v ∨ Holds hs l v := by
  cases h with
  | property h hi => exact (hmix h).imp (.property · hi) (.property · hi)
  | items h => exact (hmix h).imp .items .items
  | part h hi => exact (hmix h).imp (.part · hi) (.part · hi)
  | definition h hi => exact (hmix h).imp (.definition · hi) (.definition · hi)
  | oldDefinition h hi => exact (hmix h).imp (.oldDefinition · hi) (.oldDefinition · hi)

theorem Holds.size_lt (h : Holds fs l v) : v.size < sizeFields fs := size_lt_of_mem_subschemas (mem_subschemas_iff.mpr ⟨l, h⟩)

/-! ### Checks in a row -/

section
variable {α β : Type} {check : α → Except SchemaError Unit} {xs : List α}

theorem forM_eq_ok_iff : forM xs check = .ok () ↔ ∀ x ∈ xs, check x = .ok () := by
  refine ⟨fun h => ?_, forM_eq_ok⟩
  induction xs with
  | nil =>
    intro x hx
    cases hx
  | cons x xs ih =>
    rw [List.forM_cons] at h
    cases hx : check x with
    | error e =>
      rw [hx] at h
      cases h
    | ok u =>
      rw [hx] at h
      exact List.forall_mem_cons.mpr ⟨hx, ih h⟩

/-- Of checks in a row the first one that fails is reported. -/
theorem first_of_forM (h : forM xs check = .error e) :
    ∃ (i : Nat) (x : α), xs[i]? = some x ∧ check x = .error e ∧ ∀ j < i, ∀ y, xs[j]? = some y → check y = .ok () := by
  induction xs with
  | nil => cases h
  | cons x xs ih =>
    rw [List.forM_cons] at h
    cases hx : check x with
    | error e' =>
      rw [hx] at h
      cases h
      exact ⟨0, x, rfl, hx, fun j hj => absurd hj (Nat.not_lt_zero j)⟩
    | ok u =>
      rw [hx] at h
      obtain ⟨i, y, hi, hy, hbefore⟩ := ih h
      refine ⟨i + 1, y, hi, hy, fun j hj z hz => ?_⟩
      cases j with
      | zero =>
        cases hz
        exact hx
      | succ j => exact hbefore j (by omega) z hz

theorem forM_flatMap {bs : List β} {f : β → List α} : forM (bs.flatMap f) check = forM bs fun b => forM (f b) check := by
  induction bs with
  | nil => rfl
  | cons b bs ih => rw [List.flatMap_cons, List.forM_append, List.forM_cons, ih]

end

/-- The check of a schema by itself. -/
def checkAlone : Json → Except SchemaError Unit
  | .obj fs => checkOwn fs
  | v => .error (.notASchema v.kindName)

theorem checkSchema_obj_eq :
    checkSchema (.obj fs) = checkOwn fs >>= fun _ => forM (subschemas fs) checkSchema := by
  have h : forM (subschemas fs).attach (fun v => checkSchema v.1) = forM (subschemas fs) checkSchema := by
    rw [← List.forM_map, List.attach_map_subtype_val]
  rw [checkSchema, ← h]
  rfl

theorem leads_obj_or (v : Json) : (∃ fs, v = .obj fs) ∨ checkSchema v = checkAlone v ∧ ∀ route w, Leads v route w → route = [] ∧ w = v := by
  cases v with
  | obj fs => exact .inl ⟨fs, rfl⟩
  | null | bool | int | float | str | arr =>
    refine .inr ⟨?_, ?_⟩
    · rw [checkSchema, checkAlone]
      all_goals
        intro fs h
        cases h
    · intro route w h
      cases h
      exact ⟨rfl, rfl⟩

theorem checkSchema_obj_eq_ok_iff :
    checkSchema (.obj fs) = .ok () ↔ checkOwn fs = .ok () ∧ ∀ v ∈ subschemas fs, checkSchema v = .ok () := by
  rw [checkSchema_obj_eq, ← forM_eq_ok_iff]
  rcases checkOwn fs with e | u
  · refine ⟨fun h => ?_, fun h => ?_⟩
    · cases h
    · cases h.1
  · exact ⟨fun h => ⟨rfl, h⟩, fun h => h.2⟩

/-- Among the schemas of a schema that is in order itself, the first one that is not is reported. -/
theorem first_of_subschemas (h : forM (subschemas fs) checkSchema = .error e) :
    ∃ l v, Holds fs l v ∧ checkSchema v = .error e ∧ ∀ l' v', Before l' l → Holds fs l' v' → checkSchema v' = .ok () := by
  rw [subschemas_eq, forM_flatMap] at h
  obtain ⟨r, b, hb, h, hranks⟩ := first_of_forM h
  cases Holder.getElem?_all.mp hb
  obtain ⟨i, v, hi, hv, hindices⟩ := first_of_forM h
  refine ⟨(b, i), v, holds_of_getElem? hi, hv, ?_⟩
  rintro ⟨b', i'⟩ v' (hlt | ⟨heq, hlt⟩) hv'
  · have hall := hranks _ hlt b' (Holder.getElem?_all.mpr rfl)
    exact forM_eq_ok_iff.mp hall v' (List.mem_of_getElem? hv'.getElem?)
  · cases heq
    exact hindices i' hlt v' hv'.getElem?

/-! ### The whole walk -/

theorem Holds.size_lt_obj (h : Holds fs l v) : v.size < (Json.obj fs).size := by
  have := h.size_lt
  simp only [size]
  omega

theorem checkSchema_eq_ok_iff : checkSchema v = .ok () ↔ ∀ route w, Leads v route w → checkAlone w = .ok () := by
  induction hn : v.size using Nat.strong_induction_on generalizing v with
  | _ n ih =>
    subst hn
    rcases leads_obj_or v with ⟨fs, rfl⟩ | ⟨hcheck, hleads⟩
    · rw [checkSchema_obj_eq_ok_iff]
      constructor
      · rintro ⟨hown, hsub⟩ route w h
        cases h with
        | here => exact hown
        | step hl h => exact (ih _ hl.size_lt_obj rfl).mp (hsub _ (mem_subschemas_iff.mpr ⟨_, hl⟩)) _ _ h
      · intro h
        refine ⟨h [] _ .here, fun w hw => ?_⟩
        obtain ⟨l, hl⟩ := mem_subschemas_iff.mp hw
        exact (ih _ hl.size_lt_obj rfl).mpr fun route x hx => h _ _ (.step hl hx)
    · rw [hcheck]
      refine ⟨fun h route w hw => ?_, fun h => h [] _ .here⟩
      rw [(hleads route w hw).2, h]

/-- What the walk reports is what is wrong with the first schema that is not in order by itself. -/
theorem first_of_checkSchema (h : checkSchema v = .error e) : ∃ route w, Leads v route w ∧ checkAlone w = .error e ∧
    ∀ route' w', Precedes route' route → Leads v route' w' → checkAlone w' = .ok () := by
  induction hn : v.size using Nat.strong_induction_on generalizing v with
  | _ n ih =>
    subst hn
    rcases leads_obj_or v with ⟨fs, rfl⟩ | ⟨hcheck, -⟩
    · rw [checkSchema_obj_eq] at h
      cases hown : checkOwn fs with
      | error e' =>
        rw [hown] at h
        cases h
        exact ⟨[], _, .here, hown, fun route' w' hp => absurd hp not_precedes_nil⟩
      | ok u =>
        rw [hown] at h
        obtain ⟨l, v, hl, hv, hbefore⟩ := first_of_subschemas h
        obtain ⟨route, w, hw, he, hprecedes⟩ := ih _ hl.size_lt_obj hv rfl
        refine ⟨l :: route, w, .step hl hw, he, fun route' w' hp hw' => ?_⟩
        cases hw' with
        | here => exact hown
        | step hl' hw' =>
          cases hp with
          | rel hlt => exact checkSchema_eq_ok_iff.mp (hbefore _ _ hlt hl') _ _ hw'
          | cons hp =>
            cases hl.det hl'
            exact hprecedes _ _ hp hw'
    · rw [hcheck] at h
      exact ⟨[], v, .here, h, fun route' w' hp => absurd hp not_precedes_nil⟩

/-! ### What is well-formed -/

/-- What stands under the name of a type is a text or an array. -/
theorem type_cases (hd : d.IsLate) (h : isWellFormed d (.obj fs) = true) (ht : fs.get? "type" = some v) :
    (∃ name, v = .str name) ∨ ∃ ts, v = .arr ts := by
  have hmeets := meetsPlain_of_areWellFormed (areWellFormed_of_get? h ht) hd.demand_type (by decide)
  cases v with
  | str name => exact .inl ⟨name, rfl⟩
  | arr ts => exact .inr ⟨ts, rfl⟩
  | null | bool | int | float | obj => cases hmeets

theorem Holds.isWellFormed (hl : Holds fs l v) (hd : d.IsLate) (h : isWellFormed d (.obj fs) = true) :
    JsonSchema.isWellFormed d v = true := by
  have htable : ∀ {key : String} {gs : Fields} {i : Nat} {name : String}, key ∈ ["properties", "$defs", "definitions"] →
      fs.get? key = some (.obj gs) → gs[i]? = some (name, v) → JsonSchema.isWellFormed d v = true := by
    intro key gs i name hkey hgs hi
    obtain ⟨gs', he, hall⟩ := of_schemaTable (areWellFormed_of_get? h hgs) (hd.demand_tables key hkey)
    cases he
    exact hall _ (List.mem_of_getElem? hi)
  cases hl with
  | property hp hi => exact htable (by decide) hp hi
  | items hi => exact of_schema (areWellFormed_of_get? h hi) hd.demand_items
  | part ha hi =>
    obtain ⟨vs, he, hall⟩ := of_schemas (areWellFormed_of_get? h ha) hd.demand_parts
    cases he
    exact hall _ (List.mem_of_getElem? hi)
  | definition ht hi => exact htable (by decide) ht hi
  | oldDefinition ht hi => exact htable (by decide) ht hi

theorem Leads.isWellFormed (hw : Leads v route w) (hd : d.IsLate) (h : isWellFormed d v = true) :
    JsonSchema.isWellFormed d w = true := by
  induction hw with
  | here => exact h
  | step hl _ ih => exact ih (hl.isWellFormed hd h)

/-! ### What is wrong with a schema by itself -/

theorem find?_has_eq_none_iff {keys : List String} : keys.find? fs.has = none ↔ ∀ key ∈ keys, fs.get? key = none := by
  simp [List.find?_eq_none, Fields.has]

theorem find?_has_eq_some_iff {keys : List String} : keys.find? fs.has = some key ↔
    fs.get? key ≠ none ∧ ∃ before after, keys = before ++ key :: after ∧ ∀ k ∈ before, fs.get? k = none := by
  simp [List.find?_eq_some_iff_append, Fields.has, Option.isSome_iff_ne_none]

theorem checkOwn_of_keyword (h : unsupportedKeywords.find? fs.has = some key) : checkOwn fs = .error (.unsupportedKeyword key) := by
  unfold checkOwn
  rw [h]
  rfl

theorem checkOwn_of_type {name : String} (hk : unsupportedKeywords.find? fs.has = none) (ht : fs.get? "type" = some (.str name)) :
    checkOwn fs = if name ∈ supportedTypes then .ok () else .error (.unsupportedType (.str name)) := by
  unfold checkOwn
  rw [hk, ht]
  show (if supportedTypes.contains name = true then pure () else throw _) = _
  simp only [List.contains_iff_mem]
  rfl

theorem checkOwn_of_types {ts : List Json} (hk : unsupportedKeywords.find? fs.has = none) (ht : fs.get? "type" = some (.arr ts)) :
    checkOwn fs = .error (.severalTypes (.arr ts)) := by
  unfold checkOwn
  rw [hk, ht]
  rfl

theorem checkOwn_of_untyped (hk : unsupportedKeywords.find? fs.has = none) (ht : fs.get? "type" = none) : checkOwn fs = .ok () := by
  unfold checkOwn
  rw [hk, ht]
  rfl

theorem Offends.checkAlone (h : Offends v e) : JsonSchema.checkAlone v = .error e := by
  cases h with
  | boolean => rfl
  | keyword hk hbefore hkey => exact checkOwn_of_keyword (find?_has_eq_some_iff.mpr ⟨hkey, _, _, hk, hbefore⟩)
  | types hk ht => exact checkOwn_of_types (find?_has_eq_none_iff.mpr hk) ht
  | type hk ht hname => exact (checkOwn_of_type (find?_has_eq_none_iff.mpr hk) ht).trans (if_neg hname)

theorem Supported.checkAlone (h : Supported v) : JsonSchema.checkAlone v = .ok () := by
  obtain ⟨fs, rfl, hk, htype⟩ := h
  have hk := find?_has_eq_none_iff.mpr hk
  cases ht : fs.get? "type" with
  | none => exact checkOwn_of_untyped hk ht
  | some t =>
    obtain ⟨name, hname, rfl⟩ := htype t ht
    exact (checkOwn_of_type hk ht).trans (if_pos hname)

/-- A well-formed schema has support, or something is wrong with it by itself. -/
theorem supported_or_offends (hd : d.IsLate) (h : isWellFormed d v = true) : Supported v ∨ ∃ e, Offends v e := by
  rcases isWellFormed_cases h with ⟨b, rfl⟩ | ⟨fs, rfl⟩
  · exact .inr ⟨_, .boolean⟩
  · cases hk : unsupportedKeywords.find? fs.has with
    | some key =>
      obtain ⟨hkey, before, after, hk, hbefore⟩ := find?_has_eq_some_iff.mp hk
      exact .inr ⟨_, .keyword hk hbefore hkey⟩
    | none =>
      have hk := find?_has_eq_none_iff.mp hk
      cases ht : fs.get? "type" with
      | none =>
        refine .inl ⟨fs, rfl, hk, fun t h => ?_⟩
        cases ht.symm.trans h
      | some t =>
        rcases type_cases hd h ht with ⟨name, rfl⟩ | ⟨ts, rfl⟩
        · by_cases hname : name ∈ supportedTypes
          · refine .inl ⟨fs, rfl, hk, fun t h => ?_⟩
            cases ht.symm.trans h
            exact ⟨name, hname, rfl⟩
          · exact .inr ⟨_, .type hk ht hname⟩
        · exact .inr ⟨_, .types hk ht⟩

theorem checkAlone_eq_ok_iff (hd : d.IsLate) (h : isWellFormed d v = true) : checkAlone v = .ok () ↔ Supported v := by
  refine ⟨fun hv => ?_, Supported.checkAlone⟩
  rcases supported_or_offends hd h with hs | ⟨e, he⟩
  · exact hs
  · cases hv.symm.trans he.checkAlone

theorem checkAlone_eq_error_iff (hd : d.IsLate) (h : isWellFormed d v = true) : checkAlone v = .error e ↔ Offends v e := by
  refine ⟨fun hv => ?_, Offends.checkAlone⟩
  rcases supported_or_offends hd h with hs | ⟨e', he⟩
  · cases hv.symm.trans hs.checkAlone
  · cases hv.symm.trans he.checkAlone
    exact he

/-- A document that is well-formed in one of the latest dialects passes just if all schemas in it have support. Otherwise what
is wrong with the first one without support is reported. -/
theorem validate_outcome (hd : (dialectOf fs).IsLate) (hdoc : isDocument fs = true) :
    (validate (.obj fs) = .ok () ↔ ∀ route w, Leads (.obj fs) route w → Supported w) ∧
    ∀ e, validate (.obj fs) = .error e ↔ ∃ route w, Leads (.obj fs) route w ∧ Offends w e ∧
      ∀ route' w', Precedes route' route → Leads (.obj fs) route' w' → Supported w' := by
  have hvalidate : validate (.obj fs) = checkSchema (.obj fs) := if_pos hdoc
  have hok : ∀ {route w}, Leads (.obj fs) route w → (checkAlone w = .ok () ↔ Supported w) := fun h =>
    checkAlone_eq_ok_iff hd (h.isWellFormed hd hdoc)
  rw [hvalidate]
  refine ⟨checkSchema_eq_ok_iff.trans ?_, fun e => ⟨fun h => ?_, ?_⟩⟩
  · exact forall_congr' fun route => forall_congr' fun w => ⟨fun h hw => (hok hw).mp (h hw), fun h hw => (hok hw).mpr (h hw)⟩
  · obtain ⟨route, w, hw, he, hfirst⟩ := first_of_checkSchema h
    refine ⟨route, w, hw, (checkAlone_eq_error_iff hd (hw.isWellFormed hd hdoc)).mp he, ?_⟩
    exact fun route' w' hp hw' => (hok hw').mp (hfirst route' w' hp hw')
  · rintro ⟨route, w, hw, he, hfirst⟩
    cases hcheck : checkSchema (.obj fs) with
    | ok u =>
      have := checkSchema_eq_ok_iff.mp hcheck _ _ hw
      cases this.symm.trans he.checkAlone
    | error e' =>
      -- neither of the two schemas comes before the other, so they are one
      obtain ⟨route', w', hw', he', hfirst'⟩ := first_of_checkSchema hcheck
      rcases precedes_trichotomy route route' with hp | rfl | hp
      · cases (hfirst' _ _ hp hw).symm.trans he.checkAlone
      · cases hw.det hw'
        exact congrArg Except.error (Except.error.inj (he'.symm.trans he.checkAlone))
      · cases he'.symm.trans (hfirst _ _ hp hw').checkAlone

/-- Three schemas have no support: a definition in the first property, the second property, and a definition of the document. -/
def mixedDocument : Fields :=
  [("$defs", .obj [("Nothing", .obj [("type", .str "null")])]),
    ("properties", .obj
      [("name", .obj [("type", .str "string"),
        ("$defs", .obj [("Text", .obj [("type", .arr [.str "string", .str "null"])])])]),
      ("any", .bool true)])]

theorem validate_outcome_mixed :
    (dialectOf mixedDocument).IsLate ∧ isDocument mixedDocument = true ∧
    validate (.obj mixedDocument) = .error (.severalTypes (.arr [.str "string", .str "null"])) ∧
    ∃ route w, Leads (.obj mixedDocument) route w ∧ Offends w (.severalTypes (.arr [.str "string", .str "null"])) ∧
      ∀ route' w', Precedes route' route → Leads (.obj mixedDocument) route' w' → Supported w' := by
  have hd : (dialectOf mixedDocument).IsLate := .of2020
  have hdoc : isDocument mixedDocument = true := by cbv
  have he : validate (.obj mixedDocument) = .error (.severalTypes (.arr [.str "string", .str "null"])) := by cbv
  exact ⟨hd, hdoc, he, ((validate_outcome hd hdoc).2 _).mp he⟩

end RecordGrammar.JsonSchema
