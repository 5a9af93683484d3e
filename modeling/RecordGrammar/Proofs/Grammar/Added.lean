import RecordGrammar.Proofs.Grammar.Visit

/-!
# What each rule is added for

`Adds.pos_eq`: a rule is added for one position only. What is added within a field is there before the next one is compiled, and
nothing is added that is there already; so the rules of two fields differ, and with them the paths that the fields
have (`Visits.field_path_inj`), however far the objects are apart.
-/

namespace RecordGrammar

variable {settings : GrammarSettings}

theorem Compiles.itemName_mem_names {element : Shape} {lo hi : Option Nat} {name path : String} {t t' : RuleTable} {e : Expr}
    (h : Compiles settings (.array element lo hi name) path t e t') : itemName path ∈ t'.names := by
  cases h with
  | sharedArray hold => exact RuleTable.contains_iff.mp hold
  | array _ helem _ =>
    split
    · next he =>
      obtain ⟨-, _, _, -, -, rfl⟩ := (he ▸ helem).of_rule
      exact RuleTable.mem_names_ensure.mpr (.inr rfl)
    · exact RuleTable.mem_names_ensure.mpr (.inr rfl)

namespace Adds
variable {s : Shape} {path n : String} {t t' : RuleTable} {e : Expr} {pos pos' : Position}

/-- A rule is added for a field itself or for something in it. -/
def ForField (settings : GrammarSettings) (f : Field Shape) (p : String) (t : RuleTable) (q : Position) (n : String) : Prop :=
  (q = [] ∧ n = keyName p) ∨ Adds settings f.type p t q n

/-- Where a rule is added tells for which part of a shape it is. -/
theorem cases_shape (h : Adds settings s path t pos n) :
    (∃ text, s = .string text ∧ pos = [] ∧ n = path) ∨
    (∃ element lo hi name, s = .array element lo hi name ∧ t.contains (itemName path) = false ∧
      ((pos = [.element] ∧ n = itemName path) ∨
        ∃ q, pos = .element :: q ∧ Adds settings element (itemName path) t q n)) ∨
    (∃ name fields i f p t₁ q, s = .object name fields ∧ pos = .field i :: q ∧
      Reaches settings fields path [] t i f p t₁ ∧ ForField settings f p t₁ q n) := by
  cases h with
  | string hv hnamed =>
    cases hv with
    | here => exact .inl ⟨_, rfl, rfl, rfl⟩
    | element hnew hv => exact .inr (.inl ⟨_, _, _, _, rfl, hnew, .inr ⟨_, rfl, .string hv hnamed⟩⟩)
    | field hfield hv => exact .inr (.inr ⟨_, _, _, _, _, _, _, rfl, rfl, hfield, .inr (.string hv hnamed)⟩)
  | element hv hnew =>
    cases hv with
    | here => exact .inr (.inl ⟨_, _, _, _, rfl, hnew, .inl ⟨rfl, rfl⟩⟩)
    | element hnew' hv => exact .inr (.inl ⟨_, _, _, _, rfl, hnew', .inr ⟨_, rfl, .element hv hnew⟩⟩)
    | field hfield hv => exact .inr (.inr ⟨_, _, _, _, _, _, _, rfl, rfl, hfield, .inr (.element hv hnew)⟩)
  | @key pos i _ _ _ hv =>
    cases pos with
    | nil =>
      cases hv with
      | field hfield hv =>
        obtain ⟨rfl, rfl, rfl⟩ := hv.det .here
        exact .inr (.inr ⟨_, _, _, _, _, _, _, rfl, rfl, hfield, .inl ⟨rfl, rfl⟩⟩)
    | cons step pos =>
      cases hv with
      | element hnew hv => exact .inr (.inl ⟨_, _, _, _, rfl, hnew, .inr ⟨_, rfl, .key hv⟩⟩)
      | field hfield hv => exact .inr (.inr ⟨_, _, _, _, _, _, _, rfl, rfl, hfield, .inr (.key hv)⟩)

theorem eq_or_under (h : Adds settings s path t pos n) : (pos = [] ∧ n = path) ∨ Under path n := by
  cases h with
  | string hv => exact hv.path_eq_or_under
  | element hv =>
    refine .inr ?_
    rcases hv.path_eq_or_under with ⟨-, rfl⟩ | hu
    · exact .item _
    · exact hu.trans (.item _)
  | key hv =>
    refine .inr ?_
    rcases hv.path_eq_or_under with ⟨-, rfl⟩ | hu
    · exact .key _
    · exact hu.trans (.key _)

/-- What a run adds is not there before it, and is there after it. -/
theorem mem_names (h : Adds settings s path t pos n) (hc : Compiles settings s path t e t') (hpath : path ∉ t.names) :
    n ∉ t.names ∧ n ∈ t'.names := by
  cases h with
  | string hv hnamed =>
    refine ⟨fun hn => hv.path_not_mem_names hpath (hv.table_extends.mem_names hn), ?_⟩
    obtain ⟨_, _, hstring, hext⟩ := hc.visits hv
    refine hext.mem_names ?_
    cases hstring with
    | namedString => exact RuleTable.mem_names_ensure.mpr (.inr rfl)
    | plainString h => exact absurd h hnamed
  | element hv hnew =>
    refine ⟨fun hn => RuleTable.contains_eq_false_iff.mp hnew (hv.table_extends.mem_names hn), ?_⟩
    obtain ⟨_, _, harray, hext⟩ := hc.visits hv
    exact hext.mem_names harray.itemName_mem_names
  | key hv =>
    obtain ⟨name, fields, q, t₀, f, hobject, hreach, -⟩ := hv.of_field
    refine ⟨fun hn => hreach.not_mem_names.2 (hv.table_extends.mem_names hn), ?_⟩
    obtain ⟨_, _, hcompiled, hext⟩ := hc.visits hobject
    refine hext.mem_names ?_
    cases hcompiled with
    | object hfields =>
      obtain ⟨_, _, _, -, hpush⟩ := hfields.reaches hreach
      exact hpush.mem_names (RuleTable.mem_names_push.mpr (.inr rfl))

namespace ForField
variable {f : Field Shape} {p : String} {q q' : Position}

theorem mem_names (h : ForField settings f p t q n) (hc : Compiles settings f.type p t e t') (hpath : p ∉ t.names)
    (hkey : keyName p ∉ t.names) (body : Expr) : n ∉ t.names ∧ n ∈ (t'.push (keyName p) body).names := by
  rcases h with ⟨-, rfl⟩ | h
  · exact ⟨hkey, RuleTable.mem_names_push.mpr (.inr rfl)⟩
  · obtain ⟨hold, hnew⟩ := h.mem_names hc hpath
    exact ⟨hold, RuleTable.mem_names_push.mpr (.inl hnew)⟩

/-- What an earlier field adds is there when a later one is reached. -/
theorem not_later {fields : List (Field Shape)} {used keys : List String} {i j : Nat} {g : Field Shape} {p' : String}
    {t₁ t₂ : RuleTable} (hc : CompilesFields settings fields path used t keys t')
    (hi : Reaches settings fields path used t i f p t₁) (hj : Reaches settings fields path used t j g p' t₂)
    (hij : i < j) (h : ForField settings f p t₁ q n) : ¬ ForField settings g p' t₂ q' n := by
  intro h'
  obtain ⟨e, u, hcf, hext⟩ := hi.push_extends hj hij
  obtain ⟨_, _, hcg, -⟩ := hc.reaches hj
  have hn := (h.mem_names hcf hi.not_mem_names.1 hi.not_mem_names.2 (fieldExpr f.name e)).2
  exact (h'.mem_names hcg hj.not_mem_names.1 hj.not_mem_names.2 (fieldExpr g.name e)).1 (hext.mem_names hn)

end ForField

/-- A rule is added for one position only. -/
theorem pos_eq (hc : Compiles settings s path t e t') (hpath : path ∉ t.names) (h : Adds settings s path t pos n)
    (h' : Adds settings s path t pos' n) : pos = pos' := by
  induction pos generalizing s path t pos' e t' with
  | nil =>
    rcases h.cases_shape with ⟨text, rfl, -, -⟩ | ⟨_, _, _, _, -, -, ⟨hp, -⟩ | ⟨_, hp, -⟩⟩ | ⟨_, _, _, _, _, _, _, -, hp, -⟩
    · rcases h'.cases_shape with ⟨_, -, hp, -⟩ | ⟨_, _, _, _, hs, -⟩ | ⟨_, _, _, _, _, _, _, hs, -⟩
      · exact hp.symm
      · cases hs
      · cases hs
    all_goals cases hp
  | cons step pos ih =>
    rcases h.cases_shape with ⟨text, -, hp, -⟩ | ⟨element, lo, hi, name, rfl, hnew, hin⟩ |
      ⟨name, fields, i, f, p, t₁, q, rfl, hp, hreach, hin⟩
    · cases hp
    · rcases h'.cases_shape with ⟨_, hs, -⟩ | ⟨_, _, _, _, hs, -, hin'⟩ | ⟨_, _, _, _, _, _, _, hs, -⟩
      · cases hs
      · cases hs
        -- the elements' own rule is not named like anything under it
        rcases hin with ⟨hp, hn⟩ | ⟨q, hp, hin⟩ <;> rcases hin' with ⟨hp', hn'⟩ | ⟨q', rfl, hin'⟩
        · rw [hp, hp']
        · rcases hin'.eq_or_under with ⟨rfl, -⟩ | hu
          · exact hp
          · exact absurd hn hu.ne
        · rcases hin.eq_or_under with ⟨rfl, -⟩ | hu
          · rw [hp, hp']
          · exact absurd hn' hu.ne
        · cases hp
          cases hc with
          | sharedArray hold => rw [hnew] at hold; cases hold
          | array _ helem => rw [ih helem (RuleTable.contains_eq_false_iff.mp hnew) hin hin']
      · cases hs
    · cases hp
      rcases h'.cases_shape with ⟨_, hs, -⟩ | ⟨_, _, _, _, hs, -⟩ | ⟨_, _, j, g, p', t₂, q', hs, rfl, hreach', hin'⟩
      · cases hs
      · cases hs
      · cases hs
        cases hc with
        | object hc =>
          rcases Nat.lt_trichotomy i j with hij | rfl | hij
          · exact absurd hin' (hin.not_later hc hreach hreach' hij)
          · obtain ⟨rfl, rfl, rfl⟩ := hreach.det hreach'
            obtain ⟨_, _, hvalue, hkey, -⟩ := hc.reaches hreach
            -- the rule of the field itself comes after all that its value adds
            have hlast : ∀ {q}, ¬ Adds settings f.type p t₁ q (keyName p) := fun h =>
              hkey (h.mem_names hvalue hreach.not_mem_names.1).2
            rcases hin with ⟨rfl, rfl⟩ | hin <;> rcases hin' with ⟨rfl, hn⟩ | hin'
            · rfl
            · exact absurd hin' hlast
            · exact absurd (hn ▸ hin) hlast
            · rw [ih hvalue hreach.not_mem_names.1 hin hin']
          · exact absurd hin (hin'.not_later hc hreach' hreach hij)

end Adds

/-- No two fields have one path. -/
theorem Visits.field_path_inj {s s₁ s₂ : Shape} {path p : String} {t t' t₁ t₂ : RuleTable} {e : Expr} {pos pos' : Position}
    {i j : Nat} (hc : Compiles settings s path t e t') (hpath : path ∉ t.names)
    (h : Visits settings s path t (pos ++ [.field i]) s₁ p t₁) (h' : Visits settings s path t (pos' ++ [.field j]) s₂ p t₂) :
    pos ++ [.field i] = pos' ++ [.field j] :=
  (Adds.key h).pos_eq hc hpath (.key h')

end RecordGrammar
