import RecordGrammar.Proofs.Grammar.Table
import RecordGrammar.Proofs.Shape.Position

/-!
# Visits

`Visits settings s path t pos s' path' t'`: the run over `s` at `path`
from the table `t` comes to the shape `s'` at the position `pos`, which then has the path `path'`, with
the table `t'`. The run need not succeed in the end. It does not come to the elements of an array whose
rule it takes from the table (`Compiles.sharedArray`).

`Visits.det`: it comes to a position once. `Visits.mem_names`: each rule in the table was there at the
start, or comes from a string, an array or a field that the run has come to before.
-/

namespace RecordGrammar

/-- The run over the fields comes to the `i`-th one, which then gets the path `path'`, with the table `t'`. -/
inductive Reaches (settings : GrammarSettings) :
    List (Field Shape) → String → List String → RuleTable → Nat → Field Shape → String → RuleTable → Prop
  | head {f : Field Shape} {rest : List (Field Shape)} {path : String} {used : List String} {t : RuleTable} :
    Reaches settings (f :: rest) path used t 0 f (fieldPath t used path f.name) t
  | tail {f g : Field Shape} {rest : List (Field Shape)} {path path' : String} {used : List String}
    {t t₁ t' : RuleTable} {value : Expr} {i : Nat}
    (hvalue : Compiles settings f.type (fieldPath t used path f.name) t value t₁)
    (hkey : t₁.contains (keyName (fieldPath t used path f.name)) = false)
    (h : Reaches settings rest path (fieldPath t used path f.name :: used)
      (t₁.push (keyName (fieldPath t used path f.name)) (fieldExpr f.name value)) i g path' t') :
    Reaches settings (f :: rest) path used t (i + 1) g path' t'

/-- The run comes to the shape `s'` at a position. -/
inductive Visits (settings : GrammarSettings) :
    Shape → String → RuleTable → Position → Shape → String → RuleTable → Prop
  | here {s : Shape} {path : String} {t : RuleTable} : Visits settings s path t [] s path t
  | element {element s' : Shape} {lo hi : Option Nat} {name path path' : String} {t t' : RuleTable}
    {pos : Position} (hnew : t.contains (itemName path) = false)
    (h : Visits settings element (itemName path) t pos s' path' t') :
    Visits settings (.array element lo hi name) path t (.element :: pos) s' path' t'
  | field {fields : List (Field Shape)} {f : Field Shape} {s' : Shape} {name path path₁ path' : String}
    {t t₁ t' : RuleTable} {i : Nat} {pos : Position} (hfield : Reaches settings fields path [] t i f path₁ t₁)
    (h : Visits settings f.type path₁ t₁ pos s' path' t') :
    Visits settings (.object name fields) path t (.field i :: pos) s' path' t'

variable {settings : GrammarSettings}

namespace Reaches
variable {fields : List (Field Shape)} {path path₁ path₂ : String} {used : List String}
  {t t₁ t₂ : RuleTable} {i : Nat} {f g : Field Shape}

theorem det (h₁ : Reaches settings fields path used t i f path₁ t₁)
    (h₂ : Reaches settings fields path used t i g path₂ t₂) : f = g ∧ path₁ = path₂ ∧ t₁ = t₂ := by
  induction h₁ with
  | head => cases h₂; exact ⟨rfl, rfl, rfl⟩
  | tail hvalue _ _ ih =>
    cases h₂ with
    | tail hvalue' _ h₂ =>
      obtain ⟨rfl, rfl⟩ := hvalue.det hvalue'
      exact ih h₂

theorem mem (h : Reaches settings fields path used t i f path₁ t₁) : f ∈ fields := by
  induction h with
  | head => exact List.mem_cons_self
  | tail _ _ _ ih => exact List.mem_cons_of_mem _ ih

theorem under (h : Reaches settings fields path used t i f path₁ t₁) : Under path path₁ := by
  induction h with
  | head => exact .field ..
  | tail _ _ _ ih => exact ih

/-- A field that gets the name of the key rule of its object's path is called `kv`. -/
theorem segment_eq (h : Reaches settings fields path used t i f (keyName path) t₁) :
    Segment.ofName f.name = "kv" := by
  generalize hn : keyName path = n at h
  induction h with
  | head => exact segment_of_fieldPath_eq_keyName hn.symm
  | tail _ _ _ ih => exact ih hn

theorem table_extends (h : Reaches settings fields path used t i f path₁ t₁) : t.Extends t₁ := by
  induction h with
  | head => exact .refl _
  | tail hvalue _ _ ih => exact (hvalue.table_extends.trans (RuleTable.extends_push ..)).trans ih

/-- Neither the path nor the name of the key rule is the name of a rule. -/
theorem not_mem_names (h : Reaches settings fields path used t i f path₁ t₁) :
    path₁ ∉ t₁.names ∧ keyName path₁ ∉ t₁.names := by
  induction h with
  | head => exact ⟨fieldPath_not_mem_names _ _ _ _, keyName_fieldPath_not_mem_names _ _ _ _⟩
  | tail _ _ _ ih => exact ih

/-- Before a later field is reached, the run over an earlier one has given a result, and the field its rule. -/
theorem push_extends {j : Nat} (h₁ : Reaches settings fields path used t i f path₁ t₁)
    (h₂ : Reaches settings fields path used t j g path₂ t₂) (hij : i < j) :
    ∃ e t', Compiles settings f.type path₁ t₁ e t' ∧ (t'.push (keyName path₁) (fieldExpr f.name e)).Extends t₂ := by
  induction h₁ generalizing j with
  | head =>
    cases h₂ with
    | head => omega
    | tail hvalue _ h₂ => exact ⟨_, _, hvalue, h₂.table_extends⟩
  | tail hvalue _ _ ih =>
    cases h₂ with
    | head => omega
    | tail hvalue' _ h₂ =>
      obtain ⟨rfl, rfl⟩ := hvalue.det hvalue'
      exact ih h₂ (by omega)

end Reaches

namespace Visits
variable {s s₁ s₂ : Shape} {path path₁ path₂ : String} {t t₁ t₂ : RuleTable} {pos pos' : Position}

theorem det (h₁ : Visits settings s path t pos s₁ path₁ t₁) (h₂ : Visits settings s path t pos s₂ path₂ t₂) :
    s₁ = s₂ ∧ path₁ = path₂ ∧ t₁ = t₂ := by
  induction h₁ with
  | here => cases h₂; exact ⟨rfl, rfl, rfl⟩
  | element _ _ ih =>
    cases h₂ with
    | element _ h₂ => exact ih h₂
  | field hfield _ ih =>
    cases h₂ with
    | field hfield' h₂ =>
      obtain ⟨rfl, rfl, rfl⟩ := hfield.det hfield'
      exact ih h₂

theorem append (h₁ : Visits settings s path t pos s₁ path₁ t₁) (h₂ : Visits settings s₁ path₁ t₁ pos' s₂ path₂ t₂) :
    Visits settings s path t (pos ++ pos') s₂ path₂ t₂ := by
  induction h₁ with
  | here => exact h₂
  | element hnew _ ih => exact .element hnew (ih h₂)
  | field hfield _ ih => exact .field hfield (ih h₂)

theorem append_inv (h : Visits settings s path t (pos ++ pos') s₂ path₂ t₂) :
    ∃ s₁ path₁ t₁, Visits settings s path t pos s₁ path₁ t₁ ∧ Visits settings s₁ path₁ t₁ pos' s₂ path₂ t₂ := by
  induction pos generalizing s path t with
  | nil => exact ⟨_, _, _, .here, h⟩
  | cons step pos ih =>
    cases h with
    | element hnew h =>
      obtain ⟨s₁, path₁, t₁, h₁, h₂⟩ := ih h
      exact ⟨s₁, path₁, t₁, .element hnew h₁, h₂⟩
    | field hfield h =>
      obtain ⟨s₁, path₁, t₁, h₁, h₂⟩ := ih h
      exact ⟨s₁, path₁, t₁, .field hfield h₁, h₂⟩

/-- A field is visited from its object. -/
theorem of_field {i : Nat} (h : Visits settings s path t (pos ++ [.field i]) s₁ path₁ t₁) :
    ∃ name fields q t₀ f, Visits settings s path t pos (.object name fields) q t₀ ∧
      Reaches settings fields q [] t₀ i f path₁ t₁ ∧ s₁ = f.type := by
  obtain ⟨s₀, q, t₀, h₀, h⟩ := h.append_inv
  cases h with
  | field hfield h =>
    obtain ⟨rfl, rfl, rfl⟩ := h.det .here
    exact ⟨_, _, _, _, _, h₀, hfield, rfl⟩

/-- The path of a visited shape is the path of the whole one, or lies under it. -/
theorem path_eq_or_under (h : Visits settings s path t pos s₁ path₁ t₁) :
    (pos = [] ∧ path₁ = path) ∨ Under path path₁ := by
  induction h with
  | here => exact .inl ⟨rfl, rfl⟩
  | element _ _ ih =>
    refine .inr ?_
    rcases ih with ⟨-, rfl⟩ | ih
    · exact .item _
    · exact (Under.item _).trans ih
  | field hfield _ ih =>
    refine .inr ?_
    rcases ih with ⟨-, rfl⟩ | ih
    · exact hfield.under
    · exact hfield.under.trans ih

theorem table_extends (h : Visits settings s path t pos s₁ path₁ t₁) : t.Extends t₁ := by
  induction h with
  | here => exact .refl _
  | element _ _ ih => exact ih
  | field hfield _ ih => exact hfield.table_extends.trans ih

end Visits

/-- A path is no name yet when the run comes to it. -/
theorem Visits.path_not_mem_names {s s₁ : Shape} {path p : String} {t t₁ : RuleTable} {pos : Position}
    (hv : Visits settings s path t pos s₁ p t₁) (hpath : path ∉ t.names) : p ∉ t₁.names := by
  induction hv with
  | here => exact hpath
  | element hnew _ ih => exact ih (RuleTable.contains_eq_false_iff.mp hnew)
  | field hfield _ ih => exact ih hfield.not_mem_names.1

/-! ### Runs that give a result -/

/-- In a run that gives a result, the run over a field that is reached has given one too, without a rule
of the name of the field's key rule. -/
theorem CompilesFields.reaches {fields : List (Field Shape)} {path p : String} {used keys : List String}
    {t t' t₁ : RuleTable} {i : Nat} {f : Field Shape} (h : CompilesFields settings fields path used t keys t')
    (hreach : Reaches settings fields path used t i f p t₁) :
    ∃ e t₂, Compiles settings f.type p t₁ e t₂ ∧ keyName p ∉ t₂.names ∧
      (t₂.push (keyName p) (fieldExpr f.name e)).Extends t' := by
  induction hreach generalizing keys with
  | head =>
    cases h with
    | cons hvalue hkey hrest =>
      exact ⟨_, _, hvalue, RuleTable.contains_eq_false_iff.mp hkey, hrest.table_extends⟩
  | tail hvalue _ _ ih =>
    cases h with
    | cons hvalue' _ hrest =>
      obtain ⟨rfl, rfl⟩ := hvalue.det hvalue'
      exact ih hrest

theorem Compiles.visits {s s₁ : Shape} {path path₁ : String} {t t' t₁ : RuleTable} {e : Expr} {pos : Position}
    (h : Compiles settings s path t e t') (hv : Visits settings s path t pos s₁ path₁ t₁) :
    ∃ e₁ t₂, Compiles settings s₁ path₁ t₁ e₁ t₂ ∧ t₂.Extends t' := by
  induction hv generalizing e t' with
  | here => exact ⟨e, t', h, .refl t'⟩
  | element hnew _ ih =>
    cases h with
    | sharedArray hold => rw [hnew] at hold; cases hold
    | array _ helem _ =>
      obtain ⟨e₁, t₂, h, hext⟩ := ih helem
      refine ⟨e₁, t₂, h, hext.trans ?_⟩
      split
      · exact .refl _
      · exact RuleTable.extends_ensure ..
  | field hfield _ ih =>
    cases h with
    | object h =>
      obtain ⟨e, t₂, hvalue, -, hext⟩ := h.reaches hfield
      obtain ⟨e₁, t₃, h, hext'⟩ := ih hvalue
      exact ⟨e₁, t₃, h, (hext'.trans (RuleTable.extends_push ..)).trans hext⟩

theorem CompilesFields.exists_reaches {fields : List (Field Shape)} {path : String} {used keys : List String}
    {t t' : RuleTable} {i : Nat} {f : Field Shape} (h : CompilesFields settings fields path used t keys t')
    (hi : fields[i]? = some f) : ∃ p t₁, Reaches settings fields path used t i f p t₁ := by
  induction i generalizing fields used keys t with
  | zero =>
    cases h with
    | nil => simp at hi
    | cons =>
      simp only [List.getElem?_cons_zero, Option.some.injEq] at hi
      subst hi
      exact ⟨_, _, .head⟩
  | succ i ih =>
    cases h with
    | nil => simp at hi
    | cons hvalue hkey hrest =>
      obtain ⟨p, t₁, h⟩ := ih hrest (by simpa using hi)
      exact ⟨p, t₁, .tail hvalue hkey h⟩

/-! ### Where rules come from -/

/-- The run adds a rule for what stands at a position: for a string that gets one, for the elements of an
array that finds none of the right name, for a field. -/
inductive Adds (settings : GrammarSettings) (s : Shape) (path : String) (t : RuleTable) : Position → String → Prop
  | string {pos : Position} {text : StringShape} {path' : String} {t' : RuleTable}
    (h : Visits settings s path t pos (.string text) path' t') (hnamed : ¬ text.Plain) :
    Adds settings s path t pos path'
  | element {pos : Position} {element : Shape} {lo hi : Option Nat} {name path' : String} {t' : RuleTable}
    (h : Visits settings s path t pos (.array element lo hi name) path' t')
    (hnew : t'.contains (itemName path') = false) :
    Adds settings s path t (pos ++ [.element]) (itemName path')
  | key {pos : Position} {i : Nat} {s' : Shape} {path' : String} {t' : RuleTable}
    (h : Visits settings s path t (pos ++ [.field i]) s' path' t') :
    Adds settings s path t (pos ++ [.field i]) (keyName path')

theorem Adds.within {s s₁ : Shape} {path path₁ n : String} {t t₁ : RuleTable} {pos pos' : Position}
    (hv : Visits settings s path t pos s₁ path₁ t₁) (h : Adds settings s₁ path₁ t₁ pos' n) :
    Adds settings s path t (pos ++ pos') n := by
  cases h with
  | string h hnamed => exact .string (hv.append h) hnamed
  | element h hnew =>
    rw [← List.append_assoc]
    exact .element (hv.append h) hnew
  | @key pos₁ i _ _ _ h =>
    rw [← List.append_assoc]
    exact .key (by rw [List.append_assoc]; exact hv.append h)

/-- The run adds a rule for one of the fields or for something in it. -/
def AddsInFields (settings : GrammarSettings) (fields : List (Field Shape)) (path : String) (used : List String)
    (t : RuleTable) (n : String) : Prop :=
  ∃ i f path₁ t₁, Reaches settings fields path used t i f path₁ t₁ ∧
    (n = keyName path₁ ∨ ∃ pos, Adds settings f.type path₁ t₁ pos n)

theorem AddsInFields.tail {f : Field Shape} {rest : List (Field Shape)} {path n : String} {used : List String}
    {t t₁ : RuleTable} {value : Expr} (hvalue : Compiles settings f.type (fieldPath t used path f.name) t value t₁)
    (hkey : t₁.contains (keyName (fieldPath t used path f.name)) = false)
    (h : AddsInFields settings rest path (fieldPath t used path f.name :: used)
      (t₁.push (keyName (fieldPath t used path f.name)) (fieldExpr f.name value)) n) :
    AddsInFields settings (f :: rest) path used t n := by
  obtain ⟨i, g, path₁, t₂, hreach, h⟩ := h
  exact ⟨i + 1, g, path₁, t₂, .tail hvalue hkey hreach, h⟩

theorem AddsInFields.adds {fields : List (Field Shape)} {path name n : String} {t : RuleTable}
    (h : AddsInFields settings fields path [] t n) : ∃ pos, Adds settings (.object name fields) path t pos n := by
  obtain ⟨i, f, path₁, t₁, hreach, rfl | ⟨pos, h⟩⟩ := h
  · exact ⟨[] ++ [.field i], .key (.field hreach .here)⟩
  · exact ⟨_, h.within (.field hreach .here)⟩

mutual

/-- Each rule that a run adds is added for what stands at some position. -/
theorem Compiles.adds : ∀ {s : Shape} {path n : String} {t t' : RuleTable} {e : Expr},
    Compiles settings s path t e t' → n ∈ t'.names → n ∈ t.names ∨ ∃ pos, Adds settings s path t pos n
  | _, _, _, _, _, _, .namedString h, hn => by
    rcases RuleTable.mem_names_ensure.mp hn with hn | rfl
    · exact .inl hn
    · exact .inr ⟨[], .string .here h.not_plain⟩
  | _, _, _, _, _, _, .plainString _, hn => .inl hn
  | _, _, _, _, _, _, .scalar, hn => .inl hn
  | _, _, _, _, _, _, .enum, hn => .inl hn
  | _, _, _, _, _, _, .sharedArray _ _, hn => .inl hn
  | _, path, n, _, _, _, .array (u := t₁) hnew helem _, hn => by
    have hn : n ∈ t₁.names ∨ n = itemName path := by
      split at hn
      · exact .inl hn
      · exact RuleTable.mem_names_ensure.mp hn
    rcases hn with hn | rfl
    · rcases helem.adds hn with hn | ⟨pos, h⟩
      · exact .inl hn
      · exact .inr ⟨_, h.within (.element hnew .here)⟩
    · exact .inr ⟨_, .element .here hnew⟩
  | _, _, _, _, _, _, .object h, hn => (h.adds hn).imp id AddsInFields.adds

theorem CompilesFields.adds : ∀ {fields : List (Field Shape)} {path n : String} {used keys : List String}
    {t t' : RuleTable}, CompilesFields settings fields path used t keys t' → n ∈ t'.names →
    n ∈ t.names ∨ AddsInFields settings fields path used t n
  | _, _, _, _, _, _, _, .nil, hn => .inl hn
  | f :: _, path, _, used, _, t, _, .cons hvalue hkey hrest, hn => by
    rcases hrest.adds hn with hn | h
    · rcases RuleTable.mem_names_push.mp hn with hn | rfl
      · rcases hvalue.adds hn with hn | h
        · exact .inl hn
        · exact .inr ⟨0, f, _, t, .head, .inr h⟩
      · exact .inr ⟨0, f, _, t, .head, .inl rfl⟩
    · exact .inr (h.tail hvalue hkey)

end

theorem Reaches.adds {fields : List (Field Shape)} {path path₁ n : String} {used : List String} {t t₁ : RuleTable}
    {i : Nat} {f : Field Shape} (h : Reaches settings fields path used t i f path₁ t₁) (hn : n ∈ t₁.names) :
    n ∈ t.names ∨ AddsInFields settings fields path used t n := by
  induction h with
  | head => exact .inl hn
  | @tail f _ _ _ _ _ t _ _ _ _ hvalue hkey _ ih =>
    rcases ih hn with hn | h
    · rcases RuleTable.mem_names_push.mp hn with hn | rfl
      · rcases hvalue.adds hn with hn | h
        · exact .inl hn
        · exact .inr ⟨0, f, _, t, .head, .inr h⟩
      · exact .inr ⟨0, f, _, t, .head, .inl rfl⟩
    · exact .inr (h.tail hvalue hkey)

/-- A rule that the run finds at a visit was there at the start, or the run has added it. -/
theorem Visits.adds {s s₁ : Shape} {path path₁ n : String} {t t₁ : RuleTable} {pos : Position}
    (h : Visits settings s path t pos s₁ path₁ t₁) (hn : n ∈ t₁.names) :
    n ∈ t.names ∨ ∃ pos', Adds settings s path t pos' n := by
  induction h with
  | here => exact .inl hn
  | element hnew _ ih =>
    rcases ih hn with hn | ⟨pos', h⟩
    · exact .inl hn
    · exact .inr ⟨_, h.within (.element hnew .here)⟩
  | field hfield _ ih =>
    rcases ih hn with hn | ⟨pos', h⟩
    · exact (hfield.adds hn).imp id AddsInFields.adds
    · exact .inr ⟨_, h.within (.field hfield .here)⟩

end RecordGrammar
