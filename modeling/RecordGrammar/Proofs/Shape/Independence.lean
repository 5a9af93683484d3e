import Mathlib.Data.List.Basic
import RecordGrammar.Proofs.Shape.Edit

/-!
# Edits do not interfere

`edit.Hits s p g`: on the shape `s` the edit changes the node at the position `p` by `g`. No edit touches the skeleton of a
shape, and the skeleton alone settles where an edit hits and why it is refused, so after one edit another one does what it would
have done before. `edits_independent`: two edits commute unless they are of one kind and at the same segments, and then the later
one wins.
-/

namespace RecordGrammar
open Shape

/-- An edit of the field at a path. -/
inductive Edit where
  | describe (path description : String)
  | restrict (path : String) (values : List String)

namespace Edit

def apply : Edit → Shape → Except EditError Shape
  | describe path description => withDescription path description
  | restrict path values => withAllowedValues path values

/-- The edits are of one kind and their paths have the same segments. -/
def SameTarget : Edit → Edit → Prop
  | describe path _, describe path' _ => pathSegments path = pathSegments path'
  | restrict path _, restrict path' _ => pathSegments path = pathSegments path'
  | _, _ => False

/-- On the shape the edit changes what stands at the position, and how. -/
inductive Hits : Shape → Edit → Position → (Shape → Shape) → Prop
  | describe {name path description : String} {fields : List (Field Shape)} {p : Position} {i : Nat} {f : Field Shape}
    (h : Addresses fields (pathSegments path) p i f) :
    Hits (object name fields) (.describe path description) p (Shape.describe i description)
  | restrict {name path : String} {values : List String} {fields : List (Field Shape)} {p : Position} {text : StringShape}
    (h : AddressesText fields (pathSegments path) p text) :
    Hits (object name fields) (.restrict path values) p (Shape.restrict values)

end Edit

/-- Why something is refused, if it is. -/
def refusal? {α : Type} : Except EditError α → Option EditError
  | .ok _ => none
  | .error e => some e

theorem refusal?_eq_some_iff {α : Type} {x : Except EditError α} {e : EditError} : refusal? x = some e ↔ x = .error e := by
  cases x <;> simp [refusal?]

namespace Shape

mutual

/-- The shape without descriptions and allowed values. -/
def skeleton : Shape → Shape
  | string text => string { text with allowed := [] }
  | array element lo hi name => array element.skeleton lo hi name
  | object name fields => object name (skeletons fields)
  | s => s

def skeletons : List (Field Shape) → List (Field Shape)
  | [] => []
  | ⟨name, type, _⟩ :: rest => ⟨name, type.skeleton, none⟩ :: skeletons rest

end

variable {s t : Shape} {p q : Position} {g g' : Shape → Shape} {fields : List (Field Shape)} {f f' : Field Shape}
  {name owner head path : String} {segments segments' rest : List String} {i j m n : Nat} {text : StringShape}

/-! ### Several changes -/

/-- The change leaves the shapes in a shape alone, and what it makes of a node does not depend on them. -/
structure ChangesNode (g : Shape → Shape) : Prop where
  parts : KeepsParts g
  node : ∀ {n n' : Shape}, n.node = n'.node → (g n).node = (g n').node

/-- Of two changes at one position the second one is made to what the first one has left. -/
theorem editAt_editAt : (s.editAt g p).editAt g' p = s.editAt (g' ∘ g) p := by
  induction p generalizing s with
  | nil => rw [editAt, editAt, editAt, Function.comp_apply]
  | cons step p ih =>
    rcases step_cases s step with ⟨element, lo, hi, name, rfl, rfl⟩ | ⟨name, fields, i, rfl, rfl⟩ | hnone
    · rw [editAt_element, editAt_element, editAt_element, ih]
    · rw [editAt_field, editAt_field, editAt_field, List.modify_modify_eq]
      congr 2
      funext f
      simp only [Function.comp_apply, ih]
    · rw [(hnone p).2, (hnone p).2, (hnone p).2]

/-- The node at a position once two changes have been made. -/
theorem node_editAt_editAt (hg : ChangesNode g) (hg' : ChangesNode g') (r : Position) :
    (((s.editAt g p).editAt g' q).at? r).map Shape.node = (s.at? r).map fun n =>
      if r = q then (if r = p then (g' (g n)).node else (g' n).node) else if r = p then (g n).node else n.node := by
  have hfirst := changedAt_editAt (p := p) (s := s) hg.parts r
  rw [changedAt_editAt hg'.parts r]
  cases hs : s.at? r with
  | none =>
    rw [hs, Option.map_none, Option.map_eq_none_iff] at hfirst
    rw [hfirst, Option.map_none, Option.map_none]
  | some n =>
    rw [hs, Option.map_some, Option.map_eq_some_iff] at hfirst
    obtain ⟨n', hn', hnode⟩ := hfirst
    rw [hn', Option.map_some, Option.map_some, Option.some.injEq]
    by_cases hr : r = p
    · rw [if_pos hr] at hnode
      simp only [if_pos hr, hg'.node hnode, hnode]
    · rw [if_neg hr] at hnode
      simp only [if_neg hr, hg'.node hnode, hnode]

/-- Changes commute if they are made at two positions, or commute themselves. -/
theorem editAt_comm (hg : ChangesNode g) (hg' : ChangesNode g') (h : p = q → ∀ n, (g' (g n)).node = (g (g' n)).node) :
    (s.editAt g p).editAt g' q = (s.editAt g' q).editAt g p := by
  refine eq_of_nodes fun r => ?_
  rw [node_editAt_editAt hg hg', node_editAt_editAt hg' hg]
  refine Option.map_congr fun n _ => ?_
  by_cases hp : r = p
  · by_cases hq : r = q
    · simp only [if_pos hp, if_pos hq, h (hp.symm.trans hq) n]
    · simp only [if_pos hp, if_neg hq]
  · by_cases hq : r = q
    · simp only [if_neg hp, if_pos hq]
    · simp only [if_neg hp, if_neg hq]

theorem node_describe {description : String} : (describe i description (object name fields)).node =
    .object name ((fields.map fun f => (f.name, f.description)).modify i fun f => (f.1, some description)) := by
  rw [describe, Shape.node]
  congr 1
  refine List.ext_getElem? fun j => ?_
  rw [List.getElem?_map, List.getElem?_modify, List.getElem?_modify, List.getElem?_map]
  cases fields[j]? with
  | none => rfl
  | some f =>
    by_cases hj : i = j
    · simp [hj]
    · simp [hj]

theorem changesNode_describe {description : String} : ChangesNode (describe i description) := by
  refine ⟨keepsParts_describe, fun {n n'} h => ?_⟩
  cases n with
  | object name fields =>
    cases n' with
    | object name' fields' =>
      obtain ⟨hname, hfields⟩ := Node.object.inj h
      rw [node_describe, node_describe, hname, hfields]
    | string | scalar | enum | array | custom => cases h
  | string | scalar | enum | array | custom =>
    cases n' with
    | object => cases h
    | string | scalar | enum | array | custom => exact h

theorem changesNode_restrict {values : List String} : ChangesNode (restrict values) := by
  refine ⟨keepsParts_restrict, fun {n n'} h => ?_⟩
  cases n with
  | string text =>
    cases n' with
    | string text' =>
      simp only [Shape.node, Node.string.injEq] at h
      rw [h]
    | scalar | enum | array | object | custom => cases h
  | scalar | enum | array | object | custom =>
    cases n' with
    | string => cases h
    | scalar | enum | array | object | custom => exact h

theorem describe_comm {d d' : String} (h : i ≠ j) (s : Shape) :
    describe j d' (describe i d s) = describe i d (describe j d' s) := by
  cases s with
  | object name fields => rw [describe, describe, describe, describe, List.modify_modify_ne _ _ _ h]
  | string | scalar | enum | array | custom => rfl

theorem describe_describe {d d' : String} : describe i d' ∘ describe i d = describe i d' := by
  funext s
  cases s with
  | object name fields =>
    rw [Function.comp_apply, describe, describe, describe, List.modify_modify_eq]
    rfl
  | string | scalar | enum | array | custom => rfl

theorem restrict_restrict {values values' : List String} : restrict values' ∘ restrict values = restrict values' := by
  funext s
  cases s <;> rfl

/-! ### Skeletons -/

theorem skeletons_eq_map : skeletons fields = fields.map fun f => ⟨f.name, f.type.skeleton, none⟩ := by
  induction fields with
  | nil => rfl
  | cons f rest ih => rw [skeletons, ih, List.map_cons]

theorem getElem?_skeletons : (skeletons fields)[i]? = fields[i]?.map fun f => ⟨f.name, f.type.skeleton, none⟩ := by
  rw [skeletons_eq_map, List.getElem?_map]

theorem at?_skeleton : s.skeleton.at? p = (s.at? p).map skeleton := by
  induction p generalizing s with
  | nil => rw [at?_nil, at?_nil, Option.map_some]
  | cons step p ih =>
    cases s with
    | array element lo hi name =>
      cases step with
      | element => rw [skeleton, at?_element, at?_element, ih]
      | field => simp [skeleton, at?]
    | object name fields =>
      cases step with
      | element => simp [skeleton, at?]
      | field i =>
        rw [skeleton, at?_field, at?_field, getElem?_skeletons]
        cases fields[i]? with
        | none => rfl
        | some f => exact ih
    | string | scalar | enum | custom => cases step <;> simp [skeleton, at?]

theorem withoutArrays_skeleton : ∀ s : Shape, s.skeleton.withoutArrays = s.withoutArrays.skeleton
  | array element _ _ _ => withoutArrays_skeleton element
  | string _ | scalar _ _ | enum _ _ | object _ _ | custom _ => rfl

theorem findField?_skeletons :
    findField? (skeletons fields) name = (findField? fields name).map fun f => ⟨f.name, f.type.skeleton, none⟩ := by
  rw [skeletons_eq_map, findField?, findField?, List.find?_map]
  rfl

/-- A change that keeps the skeleton of a node keeps that of the whole shape. -/
theorem skeleton_editAt (hg : ∀ n, (g n).skeleton = n.skeleton) : (s.editAt g p).skeleton = s.skeleton := by
  induction p generalizing s with
  | nil => rw [editAt, hg]
  | cons step p ih =>
    rcases step_cases s step with ⟨element, lo, hi, name, rfl, rfl⟩ | ⟨name, fields, i, rfl, rfl⟩ | hnone
    · rw [editAt_element, skeleton, skeleton, ih]
    · rw [editAt_field, skeleton, skeleton]
      congr 1
      refine List.ext_getElem? fun j => ?_
      rw [getElem?_skeletons, getElem?_skeletons, getElem?_modify_type, Option.map_map]
      refine Option.map_congr fun f _ => ?_
      by_cases hj : i = j
      · simp only [Function.comp_apply, if_pos hj, ih]
      · simp only [Function.comp_apply, if_neg hj]
    · rw [(hnone p).2]

theorem skeleton_describe {description : String} (s : Shape) : (describe i description s).skeleton = s.skeleton := by
  cases s with
  | object name fields =>
    rw [describe, skeleton, skeleton]
    congr 1
    refine List.ext_getElem? fun j => ?_
    rw [getElem?_skeletons, getElem?_skeletons, List.getElem?_modify]
    cases fields[j]? with
    | none => rfl
    | some f =>
      by_cases hj : i = j
      · simp [hj]
      · simp [hj]
  | string | scalar | enum | array | custom => rfl

theorem skeleton_restrict {values : List String} (s : Shape) : (restrict values s).skeleton = s.skeleton := by
  cases s <;> rfl

theorem IsFirst.skeleton (h : IsFirst fields name i f) :
    IsFirst (skeletons fields) name i ⟨f.name, f.type.skeleton, none⟩ := by
  refine ⟨by rw [getElem?_skeletons, h.index, Option.map_some], h.named, fun j hj g hg => ?_⟩
  rw [getElem?_skeletons] at hg
  obtain ⟨g', hg', rfl⟩ := Option.map_eq_some_iff.mp hg
  exact h.first j hj g' hg'

theorem Addresses.skeleton (h : Addresses fields segments p i f) :
    Addresses (skeletons fields) segments p i ⟨f.name, f.type.skeleton, none⟩ := by
  induction h with
  | last hf => exact .last hf.skeleton
  | @inner _ _ _ _ owner _ _ _ _ _ _ _ hf hobject _ ih =>
    exact .inner hf.skeleton (by rw [at?_skeleton, hobject, Option.map_some, Shape.skeleton]) ih

theorem AddressesText.skeleton (h : AddressesText fields segments p text) :
    AddressesText (skeletons fields) segments p { text with allowed := [] } := by
  obtain ⟨h, ht⟩ := h
  exact .intro h.skeleton (by rw [at?_skeleton, ht, Option.map_some, Shape.skeleton])

/-! ### Refusals -/

/-- Why a field cannot be changed is settled by the skeletons of the fields, if that is so for the field itself. -/
theorem refusal?_updateFields {change : Field Shape → Except EditError (Field Shape)}
    (hchange : ∀ f, refusal? (change ⟨f.name, f.type.skeleton, none⟩) = refusal? (change f)) :
    refusal? (updateFields change owner (skeletons fields) head rest) = refusal? (updateFields change owner fields head rest) := by
  induction rest generalizing owner fields head with
  | nil =>
    rw [updateFields, updateFields, findField?_skeletons]
    cases findField? fields head with
    | none => rfl
    | some f =>
      have hf := hchange f
      dsimp only [Option.map_some]
      cases hs : change ⟨f.name, f.type.skeleton, none⟩ <;> cases ht : change f <;> rw [hs, ht] at hf <;> exact hf
  | cons next rest ih =>
    rw [updateFields, updateFields, findField?_skeletons]
    cases findField? fields head with
    | none => rfl
    | some f =>
      simp only [Option.map_some, withoutArrays_skeleton]
      cases f.type.withoutArrays with
      | object owner' inner =>
        have hinner := @ih inner owner' next
        simp only [skeleton]
        cases hs : updateFields change owner' (skeletons inner) next rest <;>
          cases ht : updateFields change owner' inner next rest <;> rw [hs, ht] at hinner <;> exact hinner
      | string | scalar | enum | array | custom => rfl

theorem refusal?_update {change : Field Shape → Except EditError (Field Shape)}
    (hchange : ∀ f, refusal? (change ⟨f.name, f.type.skeleton, none⟩) = refusal? (change f)) (s : Shape) :
    refusal? (s.skeleton.update path change) = refusal? (s.update path change) := by
  cases s with
  | object name fields =>
    rw [skeleton, update, update]
    cases pathSegments path with
    | nil => rfl
    | cons head rest =>
      have hfields : refusal? (updateFields change name (skeletons fields) head rest) =
          refusal? (updateFields change name fields head rest) := refusal?_updateFields hchange
      dsimp only
      cases hs : updateFields change name (skeletons fields) head rest <;>
        cases ht : updateFields change name fields head rest <;> rw [hs, ht] at hfields <;> exact hfields
  | scalar kind => cases kind <;> rfl
  | string | enum | array | custom => rfl

/-! ### One field for each path -/

theorem not_mem_inArrays : Step.field i ∉ inArrays n := fun h => nomatch List.eq_of_mem_replicate h

/-- The place of a field, or of what is in its arrays, tells the segments that lead to it. -/
theorem Addresses.segments_eq (h : Addresses fields segments p i f) (h' : Addresses fields segments' q j f')
    (heq : p ++ .field i :: inArrays m = q ++ .field j :: inArrays n) : segments = segments' := by
  induction h generalizing segments' q with
  | last hf =>
    cases h' with
    | last hf' =>
      obtain ⟨hi, -⟩ := List.cons.inj heq
      cases hi
      rw [← hf.named, ← hf'.named, Option.some.inj (hf.index.symm.trans hf'.index)]
    | inner =>
      -- a field of an object in the arrays of the one field is not in these arrays
      have hmem : Step.field j ∈ inArrays m := by
        rw [(List.cons.inj heq).2]
        exact List.mem_append_right _ List.mem_cons_self
      exact absurd hmem not_mem_inArrays
  | @inner _ _ _ _ _ _ p' _ i' _ _ _ hf hobject h ih =>
    cases h' with
    | last hf' =>
      have hmem : Step.field i' ∈ inArrays n := by
        rw [← (List.cons.inj heq).2]
        exact List.mem_append_right _ List.mem_cons_self
      exact absurd hmem not_mem_inArrays
    | inner hf' hobject' h' =>
      obtain ⟨hi, -⟩ := List.cons.inj heq
      cases hi
      cases hf.index.symm.trans hf'.index
      cases depth_det hobject noArray_object hobject' noArray_object
      cases hobject.symm.trans hobject'
      rw [List.append_assoc, List.append_assoc] at heq
      rw [← hf.named, ← hf'.named, ih h' (List.append_cancel_left heq)]

theorem AddressesText.segments_eq {text' : StringShape} (h : AddressesText fields segments p text)
    (h' : AddressesText fields segments' p text') : segments = segments' := by
  cases h with
  | @intro p i n f _ h ht =>
    generalize hq : p ++ .field i :: inArrays n = q at h'
    cases h' with
    | intro h' ht' => exact h.segments_eq h' hq

/-! ### What successful edits give -/

theorem withDescription_eq_ok_iff {description : String} :
    (object name fields).withDescription path description = .ok t ↔
      ∃ p i f, Addresses fields (pathSegments path) p i f ∧ t = (object name fields).editAt (describe i description) p := by
  have hedit : ∀ {p i f}, Addresses fields (pathSegments path) p i f →
      (object name fields).withDescription path description = .ok ((object name fields).editAt (describe i description) p) := by
    intro p i f h
    obtain ⟨t', ht', hchanged⟩ : ∃ t, (object name fields).withDescription path description = .ok t ∧
        ChangedAt p (describe i description) (object name fields) t := withDescription_of_addresses h
    rw [ht', hchanged.det (changedAt_editAt keepsParts_describe)]
  constructor
  · intro h
    obtain ⟨p, i, f, -, haddress, -⟩ := exists_of_update h
    exact ⟨p, i, f, haddress, Except.ok.inj (h.symm.trans (hedit haddress))⟩
  · rintro ⟨p, i, f, haddress, rfl⟩
    exact hedit haddress

theorem withAllowedValues_eq_ok_iff {values : List String} :
    (object name fields).withAllowedValues path values = .ok t ↔
      ∃ p text, AddressesText fields (pathSegments path) p text ∧ t = (object name fields).editAt (restrict values) p := by
  have hedit : ∀ {p text}, AddressesText fields (pathSegments path) p text →
      (object name fields).withAllowedValues path values = .ok ((object name fields).editAt (restrict values) p) := by
    intro p text h
    obtain ⟨t', ht', hchanged⟩ : ∃ t, (object name fields).withAllowedValues path values = .ok t ∧
        ChangedAt p (restrict values) (object name fields) t := withAllowedValues_of_addresses h
    rw [ht', hchanged.det (changedAt_editAt keepsParts_restrict)]
  constructor
  · intro h
    obtain ⟨p, i, f, f', haddress, hchange⟩ := exists_of_update h
    obtain ⟨n, hn⟩ := exists_inArrays f.type
    split at hchange
    · next text htext =>
      rw [htext] at hn
      exact ⟨_, text, .intro haddress hn, Except.ok.inj (h.symm.trans (hedit (.intro haddress hn)))⟩
    · cases hchange
  · rintro ⟨p, text, haddress, rfl⟩
    exact hedit haddress

/-- Where values are restricted there is a string. -/
theorem AddressesText.at?_eq (h : AddressesText fields segments p text) (name : String) :
    (object name fields).at? p = some (string text) := by
  obtain ⟨h, ht⟩ := h
  obtain ⟨name', fields', hat, hi⟩ := h.exists_at name
  rw [at?_append, hat, Option.bind_some, at?_field, hi]
  exact ht

end Shape

namespace Edit
variable {a b : Edit} {s t u : Shape} {p q : Position} {g g' : Shape → Shape}

/-! ### Where edits hit -/

theorem apply_eq_ok_iff : a.apply s = .ok t ↔ ∃ p g, a.Hits s p g ∧ t = s.editAt g p := by
  cases s with
  | object name fields =>
    cases a with
    | describe path description =>
      rw [apply, withDescription_eq_ok_iff]
      constructor
      · rintro ⟨p, i, f, h, rfl⟩
        exact ⟨p, _, .describe h, rfl⟩
      · rintro ⟨p, g, h, rfl⟩
        cases h with
        | describe h => exact ⟨p, _, _, h, rfl⟩
    | restrict path values =>
      rw [apply, withAllowedValues_eq_ok_iff]
      constructor
      · rintro ⟨p, text, h, rfl⟩
        exact ⟨p, _, .restrict h, rfl⟩
      · rintro ⟨p, g, h, rfl⟩
        cases h with
        | restrict h => exact ⟨p, _, h, rfl⟩
  | string | scalar | enum | array | custom =>
    refine ⟨fun h => ?_, ?_⟩
    · cases a <;> cases h
    · rintro ⟨p, g, ⟨⟩, -⟩

theorem Hits.changesNode (h : a.Hits s p g) : ChangesNode g := by
  cases h with
  | describe => exact changesNode_describe
  | restrict => exact changesNode_restrict

theorem Hits.skeleton_eq (h : a.Hits s p g) (n : Shape) : (g n).skeleton = n.skeleton := by
  cases h with
  | describe => exact skeleton_describe n
  | restrict => exact skeleton_restrict n

theorem Hits.det (h : a.Hits s p g) (h' : a.Hits s q g') : p = q ∧ g = g' := by
  cases h with
  | describe h =>
    cases h' with
    | describe h' =>
      obtain ⟨rfl, rfl, -⟩ := h.det h'
      exact ⟨rfl, rfl⟩
  | restrict h =>
    cases h' with
    | restrict h' =>
      obtain ⟨h, ht⟩ := h
      obtain ⟨h', ht'⟩ := h'
      obtain ⟨rfl, rfl, rfl⟩ := h.det h'
      rw [depth_det ht noArray_string ht' noArray_string]
      exact ⟨rfl, rfl⟩

theorem Hits.skeleton (h : a.Hits s p g) : a.Hits s.skeleton p g := by
  cases h with
  | describe h => exact .describe h.skeleton
  | restrict h => exact .restrict h.skeleton

theorem refusal?_apply_skeleton (a : Edit) (s : Shape) : refusal? (a.apply s.skeleton) = refusal? (a.apply s) := by
  cases a with
  | describe path description => exact refusal?_update (fun f => rfl) s
  | restrict path values =>
    refine refusal?_update (fun f => ?_) s
    simp only [withoutArrays_skeleton]
    cases f.type.withoutArrays with
    | string text => rfl
    | scalar kind => cases kind <;> rfl
    | enum | array | object | custom => rfl

/-! ### Two edits -/

theorem Hits.skeleton_editAt (h : a.Hits s p g) : (s.editAt g p).skeleton = s.skeleton :=
  Shape.skeleton_editAt h.skeleton_eq

/-- An edit is refused, or not, as before another one. -/
theorem refusal?_apply_of_skeleton (b : Edit) (h : t.skeleton = s.skeleton) :
    refusal? (b.apply t) = refusal? (b.apply s) := by
  rw [← refusal?_apply_skeleton, h, refusal?_apply_skeleton]

/-- After another edit an edit hits where it would have hit. -/
theorem Hits.of_skeleton (hs : b.Hits s q g') (h : t.skeleton = s.skeleton) : b.Hits t q g' := by
  have hrefusal := refusal?_apply_of_skeleton b h
  rw [apply_eq_ok_iff.mpr ⟨q, g', hs, rfl⟩] at hrefusal
  cases ht : b.apply t with
  | error e =>
    rw [ht] at hrefusal
    cases hrefusal
  | ok v =>
    obtain ⟨q', g'', ht', -⟩ := apply_eq_ok_iff.mp ht
    obtain ⟨rfl, rfl⟩ := hs.skeleton.det (h ▸ ht'.skeleton)
    exact ht'

/-- Edits of one target hit one position, and there the later one wins. -/
theorem Hits.of_sameTarget (hab : a.SameTarget b) (ha : a.Hits s p g) (hb : b.Hits s q g') : p = q ∧ g' ∘ g = g' := by
  cases ha with
  | describe ha =>
    cases hb with
    | describe hb =>
      have hsegments : pathSegments _ = pathSegments _ := hab
      rw [hsegments] at ha
      obtain ⟨rfl, rfl, -⟩ := ha.det hb
      exact ⟨rfl, describe_describe⟩
    | restrict => exact hab.elim
  | restrict ha =>
    cases hb with
    | describe => exact hab.elim
    | restrict hb =>
      have hsegments : pathSegments _ = pathSegments _ := hab
      rw [hsegments] at ha
      obtain ⟨ha, ht⟩ := ha
      obtain ⟨hb, ht'⟩ := hb
      obtain ⟨rfl, rfl, rfl⟩ := ha.det hb
      rw [depth_det ht noArray_string ht' noArray_string]
      exact ⟨rfl, restrict_restrict⟩

/-- Edits of two targets hit two positions, or their changes commute. -/
theorem Hits.commute (hab : ¬ a.SameTarget b) (ha : a.Hits s p g) (hb : b.Hits s q g') (hpq : p = q) (n : Shape) :
    g' (g n) = g (g' n) := by
  subst hpq
  cases ha with
  | @describe name _ _ _ _ i _ ha =>
    cases hb with
    | @describe _ _ _ _ _ j _ hb =>
      refine describe_comm (fun hij => hab ?_) n
      subst hij
      exact ha.segments_eq (m := 0) (n := 0) hb rfl
    | restrict hb =>
      obtain ⟨_, _, hat, -⟩ := ha.exists_at name
      cases hat.symm.trans (hb.at?_eq name)
  | @restrict name _ _ _ _ _ ha =>
    cases hb with
    | describe hb =>
      obtain ⟨_, _, hat, -⟩ := hb.exists_at name
      cases hat.symm.trans (ha.at?_eq name)
    | restrict hb =>
      exact absurd (ha.segments_eq hb) hab

/-- After an edit that succeeds another one succeeds or fails just as before, with the same error. Two edits of one kind at the
same segments come to the later one alone, and any two others that succeed come to the same in either order. -/
theorem edits_independent (a b : Edit) {s t : Shape} (ha : a.apply s = .ok t) :
    (∀ e, b.apply t = .error e ↔ b.apply s = .error e) ∧
    (a.SameTarget b → b.apply t = b.apply s) ∧
    (¬ a.SameTarget b → ∀ u, b.apply s = .ok u → ∃ v, b.apply t = .ok v ∧ a.apply u = .ok v) := by
  obtain ⟨p, g, hp, rfl⟩ := apply_eq_ok_iff.mp ha
  have hrefusal := refusal?_apply_of_skeleton b hp.skeleton_editAt
  have herror : ∀ e, b.apply (s.editAt g p) = .error e ↔ b.apply s = .error e := fun e => by
    rw [← refusal?_eq_some_iff, hrefusal, refusal?_eq_some_iff]
  refine ⟨herror, fun hab => ?_, fun hab u hu => ?_⟩
  · cases hs : b.apply s with
    | error e => exact (herror e).mpr hs
    | ok u =>
      obtain ⟨q, g', hq, rfl⟩ := apply_eq_ok_iff.mp hs
      obtain ⟨rfl, hlater⟩ := hp.of_sameTarget hab hq
      refine apply_eq_ok_iff.mpr ⟨p, g', hq.of_skeleton hp.skeleton_editAt, ?_⟩
      rw [editAt_editAt, hlater]
  · obtain ⟨q, g', hq, rfl⟩ := apply_eq_ok_iff.mp hu
    refine ⟨(s.editAt g p).editAt g' q, apply_eq_ok_iff.mpr ⟨q, g', hq.of_skeleton hp.skeleton_editAt, rfl⟩,
      apply_eq_ok_iff.mpr ⟨p, g, hp.of_skeleton hq.skeleton_editAt, ?_⟩⟩
    exact editAt_comm hp.changesNode hq.changesNode fun hpq n => congrArg Shape.node (hp.commute hab hq hpq n)

/-- An order with an array of lines, which have two fields of one name. -/
def taggedOrder (description : Option String) (allowed : List String) : Shape :=
  object "order" [⟨"lines", array (object "line" [
    ⟨"tag", array (string { allowed }) none none "tags", description⟩, ⟨"tag", string {}, none⟩]) none (some 3) "lines", none⟩]

theorem edits_independent_tagged :
    (describe "lines.tag" "A tag").apply (taggedOrder none []) = .ok (taggedOrder (some "A tag") []) ∧
    (restrict ".lines..tag" ["new"]).apply (taggedOrder none []) = .ok (taggedOrder none ["new"]) ∧
    ∃ v, (restrict ".lines..tag" ["new"]).apply (taggedOrder (some "A tag") []) = .ok v ∧
      (describe "lines.tag" "A tag").apply (taggedOrder none ["new"]) = .ok v := by
  have ha : (describe "lines.tag" "A tag").apply (taggedOrder none []) = .ok (taggedOrder (some "A tag") []) := by
    decide +kernel
  have hb : (restrict ".lines..tag" ["new"]).apply (taggedOrder none []) = .ok (taggedOrder none ["new"]) := by
    decide +kernel
  exact ⟨ha, hb, (edits_independent _ _ ha).2.2 id _ hb⟩

end Edit
end RecordGrammar
