import RecordGrammar.Proofs.Grammar.Added
import RecordGrammar.Proofs.Grammar.Whole

/-!
# Which array a rule for elements belongs to

An array takes a rule of the right name from the table if there is one, without asking whose it is.
`itemRules_own_iff`: each array has a rule of its own, which says what its element says, and no such rule
or rule of a string serves two positions, exactly when the run finds no rule at any array (`Unshared`).
-/

namespace RecordGrammar

variable {settings : GrammarSettings}

/-- The run finds no rule for the elements of any array that it comes to. -/
def Unshared (settings : GrammarSettings) (s : Shape) (path : String) (t : RuleTable) : Prop :=
  ∀ pos element lo hi name p t₁, Visits settings s path t pos (.array element lo hi name) p t₁ →
    t₁.contains (itemName p) = false

/-- What the rule of an array says whose element is compiled from the table `t`: what the element says, or
what the rule of the element says, if it is a string that gets one. -/
inductive ElementBody (settings : GrammarSettings) (element : Shape) (item : String) (t : RuleTable) : Expr → Prop
  | inline {body : Expr} {t' : RuleTable} (h : Compiles settings element item t body t') (hne : body ≠ .rule item) :
    ElementBody settings element item t body
  | named {text : StringShape} {body : Expr} (he : element = .string text) (h : text.RuleBody settings body) :
    ElementBody settings element item t body

/-- A rule is used for a position as that of a string or of the elements of an array. -/
inductive UsesRule (settings : GrammarSettings) (s : Shape) (path : String) (t : RuleTable) :
    Position → String → Prop
  | string {pos : Position} {text : StringShape} {p : String} {t₁ : RuleTable}
    (h : Visits settings s path t pos (.string text) p t₁) (hnamed : ¬ text.Plain) :
    UsesRule settings s path t pos p
  | element {pos : Position} {element : Shape} {lo hi : Option Nat} {name p : String} {t₁ : RuleTable}
    (h : Visits settings s path t pos (.array element lo hi name) p t₁) :
    UsesRule settings s path t (pos ++ [.element]) (itemName p)

namespace Unshared
variable {s s₁ : Shape} {path path₁ : String} {t t₁ : RuleTable} {pos : Position}

theorem within (h : Unshared settings s path t) (hv : Visits settings s path t pos s₁ path₁ t₁) :
    Unshared settings s₁ path₁ t₁ :=
  fun _ _ _ _ _ _ _ hv' => h _ _ _ _ _ _ _ (hv.append hv')

theorem here {element : Shape} {lo hi : Option Nat} {name : String}
    (h : Unshared settings (.array element lo hi name) path t) : t.contains (itemName path) = false :=
  h _ _ _ _ _ _ _ .here

end Unshared

/-! ### The rule of an array -/

/-- An array that finds no rule gets one that says what its element says. -/
theorem Compiles.item_body {element : Shape} {item : String} {t t₁ : RuleTable} {value : Expr}
    (hnew : t.contains item = false) (h : Compiles settings element item t value t₁) :
    ∃ body, ElementBody settings element item t body ∧
      (if value = .rule item then t₁ else t₁.ensure item value).body? item = some body := by
  have hnew : item ∉ t.names := RuleTable.contains_eq_false_iff.mp hnew
  by_cases hvalue : value = .rule item
  · subst hvalue
    obtain ⟨-, text, body, he, hbody, rfl⟩ := h.of_rule
    refine ⟨body, .named he hbody, ?_⟩
    rw [if_pos rfl, RuleTable.ensure_of_not_mem hnew, RuleTable.body?_push hnew]
  · have hnew₁ := h.path_not_mem_names hnew hvalue
    refine ⟨value, .inline h hvalue, ?_⟩
    rw [if_neg hvalue, RuleTable.ensure_of_not_mem hnew₁, RuleTable.body?_push hnew₁]

/-- If no array finds a rule, the run comes to every position. -/
theorem Compiles.exists_visits {s s₁ : Shape} {path : String} {t t' : RuleTable} {e : Expr} {pos : Position}
    (h : Compiles settings s path t e t') (hfresh : Unshared settings s path t) (hpos : s.at? pos = some s₁) :
    ∃ p t₁, Visits settings s path t pos s₁ p t₁ := by
  induction pos generalizing s path t t' e with
  | nil =>
    simp only [Shape.at?, Option.some.injEq] at hpos
    subst hpos
    exact ⟨path, t, .here⟩
  | cons step pos ih =>
    cases h with
    -- elements are not visited where a rule was found, but none is
    | sharedArray hold => rw [hfresh.here] at hold; cases hold
    | array hnew helem =>
      cases step with
      | field => simp [Shape.at?] at hpos
      | element =>
        obtain ⟨p, t₁, hv⟩ := ih helem (hfresh.within (.element hnew .here)) hpos
        exact ⟨p, t₁, .element hnew hv⟩
    | object h =>
      cases step with
      | element => simp [Shape.at?] at hpos
      | field i =>
        simp only [Shape.at?] at hpos
        split at hpos
        · next f hi =>
          obtain ⟨p, t₁, hreach⟩ := h.exists_reaches hi
          obtain ⟨_, _, hvalue, -⟩ := h.reaches hreach
          obtain ⟨p', t₂, hv⟩ := ih hvalue (hfresh.within (.field hreach .here)) hpos
          exact ⟨p', t₂, .field hreach hv⟩
        · cases hpos
    | namedString | plainString | scalar | enum => simp [Shape.at?] at hpos

/-! ### No rule serves two positions -/

/-- Where no array finds a rule, each rule in use has been added for its position. -/
theorem UsesRule.adds {s : Shape} {path n : String} {t : RuleTable} {pos : Position} (h : UsesRule settings s path t pos n)
    (hfresh : Unshared settings s path t) : Adds settings s path t pos n := by
  cases h with
  | string hv hnamed => exact .string hv hnamed
  | element hv => exact .element hv (hfresh _ _ _ _ _ _ _ hv)

/-- Where no array finds a rule, a rule is used for one position only. -/
theorem UsesRule.pos_eq {s : Shape} {n : String} {e : Expr} {t : RuleTable} {pos pos' : Position}
    (hc : Compiles settings s "root" (seedTable settings) e t) (hfresh : Unshared settings s "root" (seedTable settings))
    (h : UsesRule settings s "root" (seedTable settings) pos n) (h' : UsesRule settings s "root" (seedTable settings) pos' n) :
    pos = pos' :=
  (h.adds hfresh).pos_eq hc root_not_mem_seedTable (h'.adds hfresh)

/-- A rule that the run has added for a string or for the elements of an array is used for that position. -/
theorem Adds.usesRule {s : Shape} {path p : String} {t : RuleTable} {pos : Position}
    (h : Adds settings s path t pos (itemName p)) : UsesRule settings s path t pos (itemName p) := by
  generalize hn : itemName p = n at h ⊢
  cases h with
  | string hv hnamed => exact .string hv hnamed
  | element hv => exact .element hv
  | key => exact absurd hn itemName_ne_keyName

/-- What an array takes from the table is not added for its own elements, since it does not look at them. -/
theorem Adds.pos_ne {s element : Shape} {lo hi : Option Nat} {name path p n : String} {t t₁ : RuleTable}
    {pos pos' : Position} (h : Adds settings s path t pos' n)
    (hv : Visits settings s path t pos (.array element lo hi name) p t₁)
    (hold : t₁.contains (itemName p) = true) : pos' ≠ pos ++ [.element] := by
  rintro rfl
  have hstep : ∀ {s₂ p₂ t₂}, ¬ Visits settings s path t (pos ++ [.element]) s₂ p₂ t₂ := fun hv₂ => by
    obtain ⟨_, _, _, hv₁, hv₂⟩ := hv₂.append_inv
    obtain ⟨rfl, rfl, rfl⟩ := hv.det hv₁
    cases hv₂ with
    | element hnew => rw [hold] at hnew; cases hnew
  generalize hq : pos ++ [Step.element] = q at h
  cases h with
  | string hv₂ => exact hstep (hq ▸ hv₂)
  | element hv₂ hnew =>
    obtain rfl := List.append_cancel_right hq
    obtain ⟨-, rfl, rfl⟩ := hv.det hv₂
    rw [hold] at hnew
    cases hnew
  | key hv₂ => exact hstep (hq ▸ hv₂)

/-! ### The main result -/

/-- Every array of the shape is compiled at some path, and the rule for its elements says there what its
own element says. -/
def OwnsItemRules (settings : GrammarSettings) (shape : Shape) (table : RuleTable) : Prop :=
  ∀ pos element lo hi name, shape.at? pos = some (.array element lo hi name) →
    ∃ p t body, Visits settings shape "root" (seedTable settings) pos (.array element lo hi name) p t ∧
      ElementBody settings element (itemName p) t body ∧ table.body? (itemName p) = some body

/-- No rule of a string or of the elements of an array is used for two positions. -/
def UsesRulesOnce (settings : GrammarSettings) (shape : Shape) : Prop :=
  ∀ pos pos' n, UsesRule settings shape "root" (seedTable settings) pos n →
    UsesRule settings shape "root" (seedTable settings) pos' n → pos = pos'

/-- Every array has a rule of its own for its elements, and no rule serves two positions, exactly when no
array that the run comes to finds a rule of the right name. -/
theorem itemRules_own_iff {shape : Shape} {table : RuleTable} (h : (shape.grammar settings).1 = .ok table) :
    OwnsItemRules settings shape table ∧ UsesRulesOnce settings shape ↔
      Unshared settings shape "root" (seedTable settings) := by
  obtain ⟨e, t, hc, rfl⟩ := exists_compiles_of_grammar h
  refine ⟨fun ⟨_, honce⟩ pos element lo hi name p t₁ hv => ?_, fun hfresh => ⟨?_, ?_⟩⟩
  · refine Bool.eq_false_iff.mpr fun hold => ?_
    have hseed : itemName p ∉ (seedTable settings).names := not_mem_seedTable_of_under <| by
      rcases hv.path_eq_or_under with ⟨-, rfl⟩ | hu
      · exact .item _
      · exact hu.trans (.item _)
    obtain ⟨pos', hadds⟩ := (hv.adds (RuleTable.contains_iff.mp hold)).resolve_left hseed
    exact hadds.pos_ne hv hold (honce _ _ _ hadds.usesRule (.element hv))
  · intro pos element lo hi name hpos
    obtain ⟨p, t₁, hv⟩ := hc.exists_visits hfresh hpos
    obtain ⟨_, t₂, hcv, hext⟩ := hc.visits hv
    have hnew := hfresh _ _ _ _ _ _ _ hv
    cases hcv with
    | sharedArray hold => rw [hnew] at hold; cases hold
    | array _ helem _ =>
      obtain ⟨body, hown, hbody⟩ := Compiles.item_body hnew helem
      exact ⟨p, t₁, body, hv, hown, (hext.trans (finishTable_extends e t)).body? hbody⟩
  · exact fun pos pos' n hu hu' => hu.pos_eq hc hfresh hu'

theorem itemRules_own_iff_integers :
    ((Shape.array (.scalar .integer "integer") none none "array").grammar {}).1 =
      .ok (finishTable {} (arrayExpr "root-item" 0 20) ((seedTable {}).push "root-item" integerExpr)) ∧
    (OwnsItemRules {} (.array (.scalar .integer "integer") none none "array")
        (finishTable {} (arrayExpr "root-item" 0 20) ((seedTable {}).push "root-item" integerExpr)) ∧
      UsesRulesOnce {} (.array (.scalar .integer "integer") none none "array") ↔
        Unshared {} (.array (.scalar .integer "integer") none none "array") "root" (seedTable {})) := by
  have h : ((Shape.array (.scalar .integer "integer") none none "array").grammar {}).1 =
      .ok (finishTable {} (arrayExpr "root-item" 0 20) ((seedTable {}).push "root-item" integerExpr)) := by
    rfl
  exact ⟨h, itemRules_own_iff h⟩

/-- The array `x` of integers takes the rule of the string `x-item` for that of its elements. -/
theorem grammar_shares_itemRule :
    ((Shape.object "Order" [{ name := "x-item", type := .string { allowed := ["a"] } },
      { name := "x", type := .array (.scalar .integer "integer") none none "array" }]).grammar {}).1.map
      (·.body? "root-x-item") = .ok (some (.anyText ["a"])) := by
  rfl

end RecordGrammar
