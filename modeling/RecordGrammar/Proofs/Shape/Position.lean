import RecordGrammar.Shape.Basic

/-!
# Positions in shapes

A position leads from a shape to a shape in it. The node at a position is what stands there without the shapes in it; a shape is
determined by its nodes (`eq_of_nodes`). `changedAt_editAt`: a change of the node at one position leaves the nodes at all
others alone.
-/

namespace RecordGrammar

/-- A step from a shape to a part of it. -/
inductive Step where
  | element
  | field (i : Nat)
deriving DecidableEq

/-- Where a shape stands in another one. -/
abbrev Position := List Step

def Shape.at? : Shape → Position → Option Shape
  | s, [] => some s
  | .array element _ _ _, .element :: pos => element.at? pos
  | .object _ fields, .field i :: pos =>
    match fields[i]? with
    | some f => f.type.at? pos
    | none => none
  | _, _ => none

/-- A shape without the shapes in it. An object has the names and descriptions of its fields. -/
inductive Node where
  | string (text : StringShape)
  | scalar (kind : Scalar) (name : String)
  | enum (name : String) (values : List String)
  | array (minItems maxItems : Option Nat) (name : String)
  | object (name : String) (fields : List (String × Option String))
  | custom (kind : String)

namespace Shape

def node : Shape → Node
  | string text => .string text
  | scalar kind name => .scalar kind name
  | enum name values => .enum name values
  | array _ minItems maxItems name => .array minItems maxItems name
  | object name fields => .object name (fields.map fun f => (f.name, f.description))
  | custom kind => .custom kind

/-- The shape with another one in the place of the one at the position, if there is one. -/
def editAt (g : Shape → Shape) : Position → Shape → Shape
  | [], s => g s
  | .element :: pos, array element minItems maxItems name => array (editAt g pos element) minItems maxItems name
  | .field i :: pos, object name fields =>
    object name (fields.modify i fun f => { f with type := editAt g pos f.type })
  | _, s => s

/-- The shapes have the same nodes at all positions but the given one, where the first one's is changed. -/
def ChangedAt (p : Position) (g : Shape → Shape) (s t : Shape) : Prop :=
  ∀ q, (t.at? q).map node = (s.at? q).map fun n => if q = p then (g n).node else n.node

/-- The change leaves the shapes in a shape alone. -/
def KeepsParts (g : Shape → Shape) : Prop := ∀ n step pos, (g n).at? (step :: pos) = n.at? (step :: pos)

variable {g g' : Shape → Shape} {s n t element : Shape} {p q pos : Position} {i : Nat} {name : String} {lo hi : Option Nat}
  {fields fields' : List (Field Shape)}

theorem at?_nil : s.at? [] = some s := by
  rw [at?]

theorem at?_element : (array element lo hi name).at? (.element :: pos) = element.at? pos := by
  rw [at?]

theorem at?_field : (object name fields).at? (.field i :: pos) = fields[i]?.bind fun f => f.type.at? pos := by
  rw [at?]
  cases fields[i]? <;> rfl

theorem editAt_element : (array element lo hi name).editAt g (.element :: pos) = array (element.editAt g pos) lo hi name := by
  rw [editAt]

theorem editAt_field : (object name fields).editAt g (.field i :: pos) =
    object name (fields.modify i fun f => { f with type := f.type.editAt g pos }) := by
  rw [editAt]

/-- The step leads to the elements of an array or to a field of an object, or to nothing. -/
theorem step_cases (s : Shape) (step : Step) :
    (∃ element lo hi name, s = array element lo hi name ∧ step = .element) ∨
      (∃ name fields i, s = object name fields ∧ step = .field i) ∨
      ∀ pos, s.at? (step :: pos) = none ∧ ∀ g, s.editAt g (step :: pos) = s := by
  cases s with
  | array element lo hi name =>
    cases step with
    | element => exact .inl ⟨element, lo, hi, name, rfl, rfl⟩
    | field => exact .inr (.inr fun pos => ⟨by simp [at?], fun g => by simp [editAt]⟩)
  | object name fields =>
    cases step with
    | element => exact .inr (.inr fun pos => ⟨by simp [at?], fun g => by simp [editAt]⟩)
    | field i => exact .inr (.inl ⟨name, fields, i, rfl, rfl⟩)
  | string | scalar | enum | custom => exact .inr (.inr fun pos => ⟨by simp [at?], fun g => by simp [editAt]⟩)

theorem at?_append : s.at? (p ++ q) = (s.at? p).bind fun n => n.at? q := by
  induction p generalizing s with
  | nil => rw [List.nil_append, at?_nil, Option.bind_some]
  | cons step p ih =>
    rw [List.cons_append]
    rcases step_cases s step with ⟨element, lo, hi, name, rfl, rfl⟩ | ⟨name, fields, i, rfl, rfl⟩ | hnone
    · rw [at?_element, at?_element, ih]
    · rw [at?_field, at?_field]
      cases fields[i]? with
      | none => rfl
      | some f => exact ih
    · rw [(hnone _).1, (hnone _).1, Option.bind_none]

/-! ### Nodes determine shapes -/

mutual

theorem eq_of_nodes : ∀ {s t : Shape}, (∀ q, (s.at? q).map node = (t.at? q).map node) → s = t
  | .array element lo hi name, t, h => by
    have hroot := h []
    cases t with
    | array element' =>
      simp only [at?_nil, Option.map_some, node, Option.some.injEq, Node.array.injEq] at hroot
      obtain ⟨rfl, rfl, rfl⟩ := hroot
      rw [eq_of_nodes (s := element) (t := element') fun q => ?_]
      have hq := h (.element :: q)
      rwa [at?_element, at?_element] at hq
    | string | scalar | enum | object | custom => simp [at?_nil, node] at hroot
  | .object name fields, t, h => by
    have hroot := h []
    cases t with
    | object name' fields' =>
      simp only [at?_nil, Option.map_some, node, Option.some.injEq, Node.object.injEq] at hroot
      obtain ⟨rfl, hfields⟩ := hroot
      rw [eq_of_fieldNodes hfields fun i q => ?_]
      have hq := h (.field i :: q)
      rwa [at?_field, at?_field] at hq
    | string | scalar | enum | array | custom => simp [at?_nil, node] at hroot
  | .string _, t, h | .scalar _ _, t, h | .enum _ _, t, h | .custom _, t, h => by
    have hroot := h []
    cases t <;> simp_all [at?_nil, node]

theorem eq_of_fieldNodes : ∀ {fields fields' : List (Field Shape)},
    fields.map (fun f => (f.name, f.description)) = fields'.map (fun f => (f.name, f.description)) →
    (∀ (i : Nat) (q : Position),
      (fields[i]?.bind fun f => f.type.at? q).map node = (fields'[i]?.bind fun f => f.type.at? q).map node) →
    fields = fields'
  | [], fields', hnames, _ => (List.map_eq_nil_iff.mp hnames.symm).symm
  | ⟨name, type, description⟩ :: rest, fields', hnames, h => by
    cases fields' with
    | nil => cases hnames
    | cons f rest' =>
      obtain ⟨name', type', description'⟩ := f
      simp only [List.map_cons, List.cons.injEq, Prod.mk.injEq] at hnames
      obtain ⟨⟨rfl, rfl⟩, hnames⟩ := hnames
      rw [eq_of_nodes (s := type) (t := type') (h 0), eq_of_fieldNodes hnames fun i => h (i + 1)]

end

/-! ### Changes at a position -/

theorem editAt_append : s.editAt g (p ++ q) = s.editAt (editAt g q) p := by
  induction p generalizing s with
  | nil => rw [List.nil_append, editAt]
  | cons step p ih =>
    rw [List.cons_append]
    rcases step_cases s step with ⟨element, lo, hi, name, rfl, rfl⟩ | ⟨name, fields, i, rfl, rfl⟩ | hnone
    · rw [editAt_element, editAt_element, ih]
    · simp only [editAt_field, ih]
    · rw [(hnone _).2, (hnone _).2]

theorem getElem?_modify_type {j : Nat} : (fields.modify i fun f => { f with type := f.type.editAt g pos })[j]? =
    fields[j]?.map fun f => { f with type := if i = j then f.type.editAt g pos else f.type } := by
  rw [List.getElem?_modify, Option.map_eq_map]
  by_cases hj : i = j
  · simp only [if_pos hj]
  · simp only [if_neg hj]

/-- Changes that agree on what stands at the position have the same effect. -/
theorem editAt_congr (h : ∀ n, s.at? p = some n → g n = g' n) : s.editAt g p = s.editAt g' p := by
  induction p generalizing s with
  | nil =>
    rw [editAt, editAt]
    exact h s at?_nil
  | cons step p ih =>
    rcases step_cases s step with ⟨element, lo, hi, name, rfl, rfl⟩ | ⟨name, fields, i, rfl, rfl⟩ | hnone
    · rw [editAt_element, editAt_element, ih fun n hn => h n (at?_element.trans hn)]
    · rw [editAt_field, editAt_field]
      congr 1
      refine List.ext_getElem? fun j => ?_
      rw [getElem?_modify_type, getElem?_modify_type]
      by_cases hj : i = j
      · subst hj
        refine Option.map_congr fun f hf => ?_
        rw [ih fun n hn => h n (by rw [at?_field, hf]; exact hn)]
      · simp only [if_neg hj]
    · rw [(hnone p).2, (hnone p).2]

/-- Editing the types of fields keeps their names and descriptions. -/
theorem map_modify_type :
    (fields.modify i fun f => { f with type := f.type.editAt g pos }).map (fun f => (f.name, f.description)) =
      fields.map fun f => (f.name, f.description) := by
  refine List.ext_getElem? fun j => ?_
  rw [List.getElem?_map, List.getElem?_map, getElem?_modify_type, Option.map_map]
  rfl

/-- What is changed and how settles the shape that results. -/
theorem ChangedAt.det {t' : Shape} (h : ChangedAt p g s t) (h' : ChangedAt p g s t') : t = t' :=
  eq_of_nodes fun q => (h q).trans (h' q).symm

theorem changedAt_editAt (hg : KeepsParts g) : ChangedAt p g s (s.editAt g p) := by
  induction p generalizing s with
  | nil =>
    intro q
    rw [editAt]
    cases q with
    | nil => rfl
    | cons step q => simp [hg s step q]
  | cons step p ih =>
    intro q
    rcases step_cases s step with ⟨element, lo, hi, name, rfl, rfl⟩ | ⟨name, fields, i, rfl, rfl⟩ | hnone
    · rw [editAt_element]
      cases q with
      | nil => simp [at?_nil, node]
      | cons step q =>
        cases step with
        | element =>
          rw [at?_element, at?_element, ih q]
          simp only [List.cons.injEq, true_and]
        | field => simp [at?]
    · rw [editAt_field]
      cases q with
      | nil => simp [at?_nil, node, map_modify_type]
      | cons step q =>
        cases step with
        | element => simp [at?]
        | field j =>
          rw [at?_field, at?_field, getElem?_modify_type]
          cases fields[j]? with
          | none => rfl
          | some f =>
            by_cases hj : i = j
            · subst hj
              simp only [Option.map_some, Option.bind_some, ↓reduceIte, ih q, List.cons.injEq, true_and]
            · simp [if_neg hj, Ne.symm hj]
    · rw [(hnone p).2]
      by_cases hq : q = step :: p
      · rw [hq, (hnone p).1]
        rfl
      · simp [hq]

end Shape

end RecordGrammar
