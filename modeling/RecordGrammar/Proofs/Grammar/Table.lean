import RecordGrammar.Proofs.Grammar.Path

/-!
# What a run adds

`Compiles.table_extends` and `Compiles.mem_names`: a run only adds rules at the end, so a name keeps the body it
has, and each rule it adds is named for the path of the shape or for something under it. The path itself
becomes a name only if the rule of that name is what the run gives (`Compiles.path_not_mem_names`).
-/

namespace RecordGrammar

namespace RuleTable
variable {t t' : RuleTable} {name n : String} {body b : Expr}

/-- The second table is the first one with rules added at the end. -/
def Extends (t t' : RuleTable) : Prop := t.rules <+: t'.rules

theorem Extends.refl (t : RuleTable) : t.Extends t := List.prefix_rfl

theorem Extends.trans {t₁ t₂ t₃ : RuleTable} (h : t₁.Extends t₂) (h' : t₂.Extends t₃) : t₁.Extends t₃ :=
  List.IsPrefix.trans h h'

theorem extends_push (t : RuleTable) (name : String) (body : Expr) : t.Extends (t.push name body) :=
  List.prefix_append _ _

theorem extends_ensure (t : RuleTable) (name : String) (body : Expr) : t.Extends (t.ensure name body) := by
  rw [ensure]
  split
  · exact .refl t
  · exact extends_push t name body

theorem Extends.mem_names (h : t.Extends t') (hn : n ∈ t.names) : n ∈ t'.names := by
  obtain ⟨rest, h⟩ := h
  rw [names, ← h, List.map_append]
  exact List.mem_append_left _ hn

theorem contains_eq_false_iff : t.contains n = false ↔ n ∉ t.names := by
  rw [← contains_iff, Bool.not_eq_true]

theorem mem_names_push : n ∈ (t.push name body).names ↔ n ∈ t.names ∨ n = name := by simp

theorem mem_names_ensure : n ∈ (t.ensure name body).names ↔ n ∈ t.names ∨ n = name := by
  rw [ensure]
  split
  · next h => exact ⟨.inl, fun h' => h'.elim id fun he => he ▸ contains_iff.mp h⟩
  · exact mem_names_push

theorem ensure_of_not_mem (h : name ∉ t.names) : t.ensure name body = t.push name body := by
  rw [ensure, contains_eq_false_iff.mpr h, if_neg Bool.false_ne_true]

theorem body?_eq_none (h : n ∉ t.names) : t.body? n = none := by
  refine List.lookup_eq_none_iff.mpr fun r hr => bne_iff_ne.mpr fun he => h ?_
  exact he ▸ List.mem_map_of_mem hr

theorem mem_names_of_body? (h : t.body? n = some b) : n ∈ t.names :=
  Decidable.not_not.mp fun hn => by rw [body?_eq_none hn] at h; cases h

theorem mem_rules_of_body? (h : t.body? n = some b) : (n, b) ∈ t.rules := by
  obtain ⟨before, after, hrules, -⟩ := List.lookup_eq_some_iff.mp h
  rw [hrules]
  exact List.mem_append_right _ List.mem_cons_self

theorem Extends.body? (h : t.Extends t') (hb : t.body? n = some b) : t'.body? n = some b :=
  List.IsPrefix.lookup_eq_some h hb

theorem body?_push (h : name ∉ t.names) : (t.push name body).body? name = some body := by
  have hn : t.rules.lookup name = none := body?_eq_none h
  simp [RuleTable.body?, push, List.lookup_append, hn]

end RuleTable

variable {settings : GrammarSettings}

/-! ### Expressions that are no names -/

theorem arrayExpr_ne_rule {item n : String} {lo hi : Nat} : arrayExpr item lo hi ≠ .rule n := nofun

theorem objectExpr_ne_rule {keys : List String} {n : String} : objectExpr keys ≠ .rule n := nofun

theorem anyText_ne_rule {values : List String} {n : String} : Expr.anyText values ≠ .rule n := nofun

theorem boundedStringExpr_ne_rule {lo hi : Nat} {n : String} : boundedStringExpr lo hi ≠ .rule n := nofun

theorem scalarExpr_ne_rule {kind : Scalar} {n : String} : scalarExpr kind ≠ .rule n := by
  cases kind <;> exact nofun

/-- The expression that a run gives is the name of a rule only if the run has compiled a string. -/
theorem Compiles.of_rule {s : Shape} {path n : String} {t t' : RuleTable}
    (h : Compiles settings s path t (.rule n) t') :
    n = path ∧ ∃ text body, s = .string text ∧ text.RuleBody settings body ∧ t' = t.ensure path body := by
  generalize he : Expr.rule n = e at h
  cases h with
  | namedString h => cases he; exact ⟨rfl, _, _, rfl, h, rfl⟩
  | plainString => exact absurd he.symm boundedStringExpr_ne_rule
  | scalar => exact absurd he.symm scalarExpr_ne_rule
  | enum => exact absurd he.symm anyText_ne_rule
  | sharedArray => exact absurd he.symm arrayExpr_ne_rule
  | array => exact absurd he.symm arrayExpr_ne_rule
  | object => exact absurd he.symm objectExpr_ne_rule

/-! ### Rules that a run adds -/

mutual

theorem Compiles.table_extends : ∀ {s : Shape} {path : String} {t t' : RuleTable} {e : Expr},
    Compiles settings s path t e t' → t.Extends t'
  | _, _, _, _, _, .namedString _ => RuleTable.extends_ensure ..
  | _, _, _, _, _, .plainString _ => .refl _
  | _, _, _, _, _, .scalar => .refl _
  | _, _, _, _, _, .enum => .refl _
  | _, _, _, _, _, .sharedArray _ _ => .refl _
  | _, _, _, _, _, .array _ helem _ => by
    split
    · exact helem.table_extends
    · exact helem.table_extends.trans (RuleTable.extends_ensure ..)
  | _, _, _, _, _, .object h => h.table_extends

theorem CompilesFields.table_extends : ∀ {fields : List (Field Shape)} {path : String} {used keys : List String}
    {t t' : RuleTable}, CompilesFields settings fields path used t keys t' → t.Extends t'
  | _, _, _, _, _, _, .nil => .refl _
  | _, _, _, _, _, _, .cons hvalue _ hrest =>
    (hvalue.table_extends.trans (RuleTable.extends_push ..)).trans hrest.table_extends

end

mutual

/-- A run adds names under the path, and the path itself if that is what the run gives. -/
theorem Compiles.mem_names : ∀ {s : Shape} {path n : String} {t t' : RuleTable} {e : Expr},
    Compiles settings s path t e t' → n ∈ t'.names → n ∈ t.names ∨ (e = .rule path ∧ n = path) ∨ Under path n
  | _, _, _, _, _, _, .namedString _, hn => by
    rcases RuleTable.mem_names_ensure.mp hn with hn | rfl
    · exact .inl hn
    · exact .inr (.inl ⟨rfl, rfl⟩)
  | _, _, _, _, _, _, .plainString _, hn => .inl hn
  | _, _, _, _, _, _, .scalar, hn => .inl hn
  | _, _, _, _, _, _, .enum, hn => .inl hn
  | _, _, _, _, _, _, .sharedArray _ _, hn => .inl hn
  | _, path, n, t, _, _, .array (u := t₁) (v := value) _ helem _, hn => by
    have hn : n ∈ t₁.names ∨ n = itemName path := by
      split at hn
      · exact .inl hn
      · exact RuleTable.mem_names_ensure.mp hn
    rcases hn with hn | rfl
    · rcases helem.mem_names hn with hn | ⟨-, rfl⟩ | hn
      · exact .inl hn
      · exact .inr (.inr (.item path))
      · exact .inr (.inr ((Under.item path).trans hn))
    · exact .inr (.inr (.item path))
  | _, _, _, _, _, _, .object h, hn => (h.mem_names hn).imp id .inr

theorem CompilesFields.mem_names : ∀ {fields : List (Field Shape)} {path n : String} {used keys : List String}
    {t t' : RuleTable}, CompilesFields settings fields path used t keys t' → n ∈ t'.names →
    n ∈ t.names ∨ Under path n
  | _, _, _, _, _, _, _, .nil, hn => .inl hn
  | f :: _, path, _, used, _, t, _, .cons hvalue _ hrest, hn => by
    have hfield := Under.field t used path f.name
    rcases hrest.mem_names hn with hn | hn
    · rcases RuleTable.mem_names_push.mp hn with hn | rfl
      · rcases hvalue.mem_names hn with hn | ⟨-, rfl⟩ | hn
        · exact .inl hn
        · exact .inr hfield
        · exact .inr (hfield.trans hn)
      · exact .inr (hfield.trans (.key _))
    · exact .inr hn

end

/-- The path itself is added only if it is what the run gives. -/
theorem Compiles.path_not_mem_names {s : Shape} {path : String} {t t' : RuleTable} {e : Expr}
    (h : Compiles settings s path t e t') (hpath : path ∉ t.names) (he : e ≠ .rule path) : path ∉ t'.names := fun hn => by
  rcases h.mem_names hn with hn | ⟨rfl, -⟩ | hn
  · exact hpath hn
  · exact he rfl
  · exact hn.ne rfl

end RecordGrammar
