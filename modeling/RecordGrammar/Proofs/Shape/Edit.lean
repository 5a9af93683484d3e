import Mathlib.Data.List.Basic
import RecordGrammar.Proofs.Shape.Position
import RecordGrammar.Shape.Edit

/-!
# What edits change

`Addresses fields segments p i f`: starting at the fields of an object, the segments lead to the `i`-th field `f` of the object
at the position `p`. `edits_exact`: an edit succeeds just if its path leads to a field, of a suitable type where values are
restricted, and then changes a single node.
-/

namespace RecordGrammar.Shape

/-- The field has the given number and is the first one of that name. -/
structure IsFirst (fields : List (Field Shape)) (name : String) (i : Nat) (f : Field Shape) : Prop where
  index : fields[i]? = some f
  named : f.name = name
  first : ∀ j < i, ∀ g, fields[j]? = some g → g.name ≠ name

/-- What the elements of the elements, and so on, of an array are; with no step the shape itself. -/
abbrev inArrays (n : Nat) : Position := List.replicate n .element

/-- Each segment names a field of the object that the one before leads to, through arrays of any depth. -/
inductive Addresses : List (Field Shape) → List String → Position → Nat → Field Shape → Prop
  | last {fields : List (Field Shape)} {name : String} {i : Nat} {f : Field Shape} (hf : IsFirst fields name i f) :
    Addresses fields [name] [] i f
  | inner {fields inner : List (Field Shape)} {name next owner : String} {rest : List String} {p : Position} {i j n : Nat}
    {f g : Field Shape} (hf : IsFirst fields name i f) (hobject : f.type.at? (inArrays n) = some (.object owner inner))
    (h : Addresses inner (next :: rest) p j g) : Addresses fields (name :: next :: rest) (.field i :: inArrays n ++ p) j g

/-- The segments lead to a field of a string, or of arrays of strings; the string stands at the position. -/
inductive AddressesText (fields : List (Field Shape)) (segments : List String) : Position → StringShape → Prop
  | intro {p : Position} {i n : Nat} {f : Field Shape} {text : StringShape} (h : Addresses fields segments p i f)
    (ht : f.type.at? (inArrays n) = some (string text)) : AddressesText fields segments (p ++ .field i :: inArrays n) text

/-- The object with another description of a field. -/
def describe (i : Nat) (description : String) : Shape → Shape
  | object name fields => object name (fields.modify i fun f => { f with description := some description })
  | s => s

/-- The string with other allowed values. -/
def restrict (values : List String) : Shape → Shape
  | string text => string { text with allowed := values }
  | s => s

variable {change : Field Shape → Except EditError (Field Shape)} {fields fields' : List (Field Shape)} {f f' : Field Shape}
  {owner head name : String} {rest segments : List String} {p : Position} {i n : Nat} {s t : Shape} {e : EditError}

/-! ### The first field of a name -/

theorem findField?_eq_some_iff : findField? fields name = some f ↔ ∃ i, IsFirst fields name i f := by
  unfold findField?
  rw [List.find?_eq_some_iff_getElem]
  simp only [beq_iff_eq]
  constructor
  · rintro ⟨hname, i, hi, hf, hfirst⟩
    refine ⟨i, List.getElem?_eq_some_iff.mpr ⟨hi, hf⟩, hname, fun j hj g hg => ?_⟩
    obtain ⟨_, rfl⟩ := List.getElem?_eq_some_iff.mp hg
    simpa using hfirst j hj
  · rintro ⟨i, hindex, hname, hfirst⟩
    obtain ⟨hi, hf⟩ := List.getElem?_eq_some_iff.mp hindex
    refine ⟨hname, i, hi, hf, fun j hj => ?_⟩
    simpa using hfirst j hj _ (List.getElem?_eq_getElem (by omega))

theorem setField_eq_set {new : Field Shape} (h : IsFirst fields new.name i f) : setField new fields = fields.set i new := by
  induction fields generalizing i with
  | nil => cases h.index
  | cons g fields ih =>
    rw [setField]
    cases i with
    | zero =>
      cases h.index
      rw [if_pos (beq_iff_eq.mpr h.named), List.set_cons_zero]
    | succ i =>
      rw [if_neg (by simpa using h.first 0 (Nat.succ_pos i) g rfl), List.set_cons_succ, ih]
      refine ⟨h.index, h.named, fun j hj g hg => h.first (j + 1) (by omega) g hg⟩

/-! ### Arrays -/

/-- The shape is no array. -/
def NoArray (s : Shape) : Prop := ∀ element lo hi name, s ≠ array element lo hi name

theorem exists_inArrays : ∀ s : Shape, ∃ n, s.at? (inArrays n) = some s.withoutArrays
  | array element lo hi name => by
    obtain ⟨n, hn⟩ := exists_inArrays element
    exact ⟨n + 1, at?_element.trans hn⟩
  | string _ | scalar _ _ | enum _ _ | object _ _ | custom _ => ⟨0, at?_nil⟩

/-- What is found in arrays and is none itself is what all arrays around it are made of, and takes its place in them. -/
theorem of_inArrays (h : s.at? (inArrays n) = some t) (ht : NoArray t) : s.withoutArrays = t ∧
    ∀ g, s.replaceInArrays (g t) = s.editAt g (inArrays n) := by
  induction n generalizing s with
  | zero =>
    obtain rfl : s = t := Option.some.inj h
    cases s with
    | array element lo hi name => exact absurd rfl (ht element lo hi name)
    | string | scalar | enum | object | custom => exact ⟨rfl, fun g => rfl⟩
  | succ n ih =>
    cases s with
    | array element lo hi name =>
      obtain ⟨hinner, hedit⟩ := ih (at?_element.symm.trans h)
      refine ⟨hinner, fun g => ?_⟩
      rw [replaceInArrays, hedit g]
      exact editAt_element.symm
    | string | scalar | enum | object | custom => cases h

theorem depth_det {m : Nat} {u : Shape} (h : s.at? (inArrays n) = some t) (ht : NoArray t) (h' : s.at? (inArrays m) = some u)
    (hu : NoArray u) : n = m := by
  induction n generalizing s m with
  | zero =>
    obtain rfl : s = t := Option.some.inj h
    cases m with
    | zero => rfl
    | succ m =>
      cases s with
      | array element lo hi name => exact absurd rfl (ht element lo hi name)
      | string | scalar | enum | object | custom => cases h'
  | succ n ih =>
    cases s with
    | array element lo hi name =>
      cases m with
      | zero =>
        cases h'
        exact absurd rfl (hu element lo hi name)
      | succ m => rw [ih (at?_element.symm.trans h) (at?_element.symm.trans h')]
    | string | scalar | enum | object | custom => cases h

/-! ### One field at most -/

theorem noArray_object {name : String} {fields : List (Field Shape)} : NoArray (object name fields) := by
  rintro _ _ _ _ ⟨⟩

theorem noArray_string {text : StringShape} : NoArray (string text) := by
  rintro _ _ _ _ ⟨⟩

theorem IsFirst.det {j : Nat} {g : Field Shape} (h : IsFirst fields name i f) (h' : IsFirst fields name j g) : i = j := by
  rcases Nat.lt_trichotomy i j with hlt | he | hlt
  · exact absurd h.named (h'.first i hlt f h.index)
  · exact he
  · exact absurd h'.named (h.first j hlt g h'.index)

/-- A path leads to one field at most. -/
theorem Addresses.det {q : Position} {j : Nat} {g : Field Shape} (h : Addresses fields segments p i f)
    (h' : Addresses fields segments q j g) : p = q ∧ i = j ∧ f = g := by
  induction h generalizing q with
  | last hf =>
    cases h' with
    | last hf' =>
      cases hf.det hf'
      cases hf.index.symm.trans hf'.index
      exact ⟨rfl, rfl, rfl⟩
  | inner hf hobject _ ih =>
    cases h' with
    | inner hf' hobject' h' =>
      cases hf.det hf'
      cases hf.index.symm.trans hf'.index
      cases depth_det hobject noArray_object hobject' noArray_object
      cases hobject.symm.trans hobject'
      obtain ⟨rfl, rfl, rfl⟩ := ih h'
      exact ⟨rfl, rfl, rfl⟩

/-! ### Edits along a path -/

/-- The object with another field in the place of one of its own. -/
def replaceField (i : Nat) (f : Field Shape) : Shape → Shape
  | object name fields => object name (fields.set i f)
  | s => s

theorem modify_eq_set {h : Field Shape → Field Shape} (hf : fields[i]? = some f) : fields.modify i h = fields.set i (h f) := by
  rw [List.modify_eq_set_getElem?, hf]
  rfl

theorem updateFields_of_addresses (ha : Addresses fields segments p i f) (hchange : change f = .ok f')
    (hname : f'.name = f.name) (hsegments : segments = head :: rest) :
    ∃ fields', updateFields change owner fields head rest = .ok fields' ∧
      object owner fields' = (object owner fields).editAt (replaceField i f') p := by
  induction ha generalizing head rest owner with
  | @last fields name i f hf =>
    cases hsegments
    have hf' : IsFirst fields f'.name i f := by rwa [hname, hf.named]
    refine ⟨setField f' fields, ?_, ?_⟩
    · rw [updateFields, findField?_eq_some_iff.mpr ⟨i, hf⟩]
      simp only [hchange]
      rfl
    · rw [setField_eq_set hf']
      rfl
  | @inner fields inner name next owner' rest' p i j n f g hf hobject h ih =>
    cases hsegments
    obtain ⟨inner', hinner', hedit⟩ := @ih owner' next rest' hchange hname rfl
    obtain ⟨hwithout, hreplace⟩ := of_inArrays hobject noArray_object
    refine ⟨setField { f with type := f.type.replaceInArrays (object owner' inner') } fields, ?_, ?_⟩
    · rw [updateFields, findField?_eq_some_iff.mpr ⟨i, hf⟩]
      simp only [hwithout, hinner']
      rfl
    · have hf' : IsFirst fields ({ f with type := f.type.replaceInArrays (object owner' inner') } : Field Shape).name i f :=
        hf.named ▸ hf
      rw [setField_eq_set hf', hedit, hreplace, ← editAt_append, List.cons_append, editAt_field, modify_eq_set hf.index]

theorem exists_addresses (h : updateFields change owner fields head rest = .ok fields') :
    ∃ p i f f', Addresses fields (head :: rest) p i f ∧ change f = .ok f' := by
  induction rest generalizing owner fields head fields' with
  | nil =>
    rw [updateFields] at h
    cases hf : findField? fields head with
    | none =>
      rw [hf] at h
      cases h
    | some f =>
      rw [hf] at h
      obtain ⟨i, hi⟩ := findField?_eq_some_iff.mp hf
      cases hchange : change f with
      | error e =>
        simp only [hchange] at h
        cases h
      | ok f' => exact ⟨[], i, f, f', .last hi, hchange⟩
  | cons next rest ih =>
    rw [updateFields] at h
    cases hf : findField? fields head with
    | none =>
      rw [hf] at h
      cases h
    | some f =>
      rw [hf] at h
      obtain ⟨i, hi⟩ := findField?_eq_some_iff.mp hf
      obtain ⟨n, hn⟩ := exists_inArrays f.type
      dsimp only at h
      split at h
      · next owner' inner hobject =>
        rw [hobject] at hn
        cases hinner : updateFields change owner' inner next rest with
        | error e =>
          rw [hinner] at h
          cases h
        | ok inner' =>
          obtain ⟨p, j, g, g', ha, hchange⟩ := ih hinner
          exact ⟨_, j, g, g', .inner hi hn ha, hchange⟩
      · cases h

/-- An edit fails for the path, or since the field cannot be changed. -/
theorem updateFields_error (h : updateFields change owner fields head rest = .error e) :
    (∃ object field, e = .noField object field) ∨ (∃ field object, e = .notAnObject field object) ∨
      ∃ f, change f = .error e := by
  induction rest generalizing owner fields head with
  | nil =>
    rw [updateFields] at h
    split at h
    · cases h
      exact .inl ⟨_, _, rfl⟩
    · next f _ =>
      cases hchange : change f with
      | error e' =>
        rw [hchange] at h
        cases h
        exact .inr (.inr ⟨f, hchange⟩)
      | ok f' =>
        rw [hchange] at h
        cases h
  | cons next rest ih =>
    rw [updateFields] at h
    split at h
    · cases h
      exact .inl ⟨_, _, rfl⟩
    · split at h
      · next owner' inner _ =>
        cases hinner : updateFields change owner' inner next rest with
        | error e' =>
          rw [hinner] at h
          cases h
          exact ih hinner
        | ok inner' =>
          rw [hinner] at h
          cases h
      · cases h
        exact .inr (.inl ⟨_, _, rfl⟩)

/-! ### Whole edits -/

section
variable {path : String}

theorem update_of_addresses (ha : Addresses fields (pathSegments path) p i f) (hchange : change f = .ok f')
    (hname : f'.name = f.name) :
    (object name fields).update path change = .ok ((object name fields).editAt (replaceField i f') p) := by
  rw [update]
  cases hsegments : pathSegments path with
  | nil =>
    rw [hsegments] at ha
    cases ha
  | cons head rest =>
    obtain ⟨fields', hupdate, hedit⟩ := updateFields_of_addresses ha hchange hname hsegments
    dsimp only
    rw [hupdate, ← hedit]
    rfl

theorem exists_of_update (h : (object name fields).update path change = .ok s) :
    ∃ p i f f', Addresses fields (pathSegments path) p i f ∧ change f = .ok f' := by
  rw [update] at h
  cases hsegments : pathSegments path with
  | nil =>
    rw [hsegments] at h
    cases h
  | cons head rest =>
    rw [hsegments] at h
    cases hupdate : updateFields change name fields head rest with
    | error e =>
      simp only [hupdate] at h
      cases h
    | ok fields' => exact exists_addresses hupdate

theorem update_error (h : (object name fields).update path change = .error e) :
    (∀ kind, e ≠ .rootNotAnObject kind) ∨ ∃ f, change f = .error e := by
  rw [update] at h
  cases hsegments : pathSegments path with
  | nil =>
    rw [hsegments] at h
    cases h
    exact .inl fun kind => by simp
  | cons head rest =>
    rw [hsegments] at h
    cases hupdate : updateFields change name fields head rest with
    | ok fields' =>
      simp only [hupdate] at h
      cases h
    | error e' =>
      simp only [hupdate] at h
      cases h
      rcases updateFields_error hupdate with ⟨_, _, rfl⟩ | ⟨_, _, rfl⟩ | hchange
      · exact .inl fun kind => by simp
      · exact .inl fun kind => by simp
      · exact .inr hchange

end

theorem Addresses.exists_at (h : Addresses fields segments p i f) (name : String) :
    ∃ name' fields', (object name fields).at? p = some (object name' fields') ∧ fields'[i]? = some f := by
  induction h generalizing name with
  | last hf => exact ⟨_, _, at?_nil, hf.index⟩
  | @inner fields inner name next owner rest p i j n f g hf hobject _ ih =>
    obtain ⟨name', fields', hat, hi⟩ := @ih owner
    refine ⟨name', fields', ?_, hi⟩
    rw [List.cons_append, at?_field, hf.index, Option.bind_some, at?_append, hobject]
    exact hat

theorem keepsParts_describe {description : String} : KeepsParts (describe i description) := by
  intro n step pos
  cases n with
  | object name fields =>
    rw [describe]
    cases step with
    | element => simp [at?]
    | field j =>
      rw [at?_field, at?_field, List.getElem?_modify]
      cases fields[j]? with
      | none => rfl
      | some f =>
        by_cases hj : i = j
        · simp [hj]
        · simp [hj]
  | string | scalar | enum | array | custom => rfl

theorem keepsParts_restrict {values : List String} : KeepsParts (restrict values) := by
  intro n step pos
  cases n with
  | string text => cases step <;> simp [restrict, at?]
  | scalar | enum | array | object | custom => rfl

theorem withDescription_of_addresses {path description : String} (h : Addresses fields (pathSegments path) p i f) :
    ∃ t, (object name fields).withDescription path description = .ok t ∧
      ChangedAt p (describe i description) (object name fields) t := by
  let f' : Field Shape := { f with description := some description }
  obtain ⟨name', fields', hat, hi⟩ := h.exists_at name
  have hedit : (object name fields).editAt (replaceField i f') p = (object name fields).editAt (describe i description) p := by
    refine editAt_congr fun n hn => ?_
    cases hat.symm.trans hn
    rw [replaceField, describe, modify_eq_set hi]
  refine ⟨_, update_of_addresses h rfl rfl, ?_⟩
  exact hedit ▸ changedAt_editAt keepsParts_describe

theorem withAllowedValues_of_addresses {path : String} {values : List String} {text : StringShape}
    (h : AddressesText fields (pathSegments path) p text) :
    ∃ t, (object name fields).withAllowedValues path values = .ok t ∧
      ChangedAt p (restrict values) (object name fields) t := by
  cases h with
  | @intro p i n f text h ht =>
    let f' : Field Shape := { f with type := f.type.editAt (restrict values) (inArrays n) }
    obtain ⟨name', fields', hat, hi⟩ := h.exists_at name
    obtain ⟨hwithout, hreplace⟩ := of_inArrays ht noArray_string
    have hedit : (object name fields).editAt (replaceField i f') p =
        (object name fields).editAt (restrict values) (p ++ .field i :: inArrays n) := by
      rw [editAt_append]
      refine editAt_congr fun n' hn => ?_
      cases hat.symm.trans hn
      rw [replaceField, editAt_field, modify_eq_set hi]
    have hrestrict : f.type.replaceInArrays (string { text with allowed := values }) = f'.type := hreplace (restrict values)
    refine ⟨(object name fields).editAt (replaceField i f') p, update_of_addresses h ?_ rfl, ?_⟩
    · simp only [hwithout, hrestrict]
      rfl
    · exact hedit ▸ changedAt_editAt keepsParts_restrict

/-- On an object an edit succeeds just if its path leads to a field, or to a string where values are restricted. It changes one
node: the description of the field, or the allowed values of the string. Otherwise the path or the field is refused. -/
theorem edits_exact (name : String) (fields : List (Field Shape)) (path : String) :
    (∀ description, (∀ p i f, Addresses fields (pathSegments path) p i f →
        ∃ t, (object name fields).withDescription path description = .ok t ∧
          ChangedAt p (describe i description) (object name fields) t) ∧
      ((¬ ∃ p i f, Addresses fields (pathSegments path) p i f) →
        ∃ e, (object name fields).withDescription path description = .error e ∧ ∀ kind, e ≠ .rootNotAnObject kind)) ∧
    ∀ values, (∀ p text, AddressesText fields (pathSegments path) p text →
        ∃ t, (object name fields).withAllowedValues path values = .ok t ∧
          ChangedAt p (restrict values) (object name fields) t) ∧
      ((¬ ∃ p text, AddressesText fields (pathSegments path) p text) →
        ∃ e, (object name fields).withAllowedValues path values = .error e ∧ ∀ kind, e ≠ .rootNotAnObject kind) := by
  refine ⟨fun description => ⟨fun p i f h => withDescription_of_addresses h, fun hnone => ?_⟩,
    fun values => ⟨fun p text h => withAllowedValues_of_addresses h, fun hnone => ?_⟩⟩
  · cases h : (object name fields).withDescription path description with
    | ok t =>
      obtain ⟨p, i, f, -, ha, -⟩ := exists_of_update h
      exact absurd ⟨p, i, f, ha⟩ hnone
    | error e =>
      refine ⟨e, rfl, (update_error h).resolve_right ?_⟩
      rintro ⟨f, ⟨⟩⟩
  · cases h : (object name fields).withAllowedValues path values with
    | ok t =>
      obtain ⟨p, i, f, f', ha, hchange⟩ := exists_of_update h
      obtain ⟨n, hn⟩ := exists_inArrays f.type
      split at hchange
      · next text htext => exact absurd ⟨_, text, .intro ha (htext ▸ hn)⟩ hnone
      · cases hchange
    | error e =>
      refine ⟨e, rfl, (update_error h).elim id ?_⟩
      rintro ⟨f, hchange⟩
      split at hchange
      · cases hchange
      · cases hchange
        simp

/-- Two fields have one name, and the first one is an array of arrays of strings. -/
def repeatedFields : List (Field Shape) :=
  [⟨"tags", .array (.array (.string { minLength := some 1 }) none (some 3) "row") none none "rows", some "All tags"⟩,
    ⟨"tags", .string {}, none⟩]

theorem edits_exact_repeated : ∃ t, (object "record" repeatedFields).withAllowedValues "..tags" ["new", "old"] = .ok t ∧
    ChangedAt [.field 0, .element, .element] (restrict ["new", "old"]) (object "record" repeatedFields) t := by
  have hfirst : IsFirst repeatedFields "tags" 0 repeatedFields[0] := ⟨rfl, rfl, fun j hj => absurd hj (Nat.not_lt_zero j)⟩
  have haddress : Addresses repeatedFields (pathSegments "..tags") [] 0 repeatedFields[0] := by
    have hsegments : pathSegments "..tags" = ["tags"] := by cbv
    rw [hsegments]
    exact .last hfirst
  have htext : AddressesText repeatedFields (pathSegments "..tags") ([] ++ .field 0 :: inArrays 2) { minLength := some 1 } :=
    .intro haddress rfl
  exact ((edits_exact "record" repeatedFields "..tags").2 ["new", "old"]).1 _ _ htext

end RecordGrammar.Shape
