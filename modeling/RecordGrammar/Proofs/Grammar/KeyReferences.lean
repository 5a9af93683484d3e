import RecordGrammar.Proofs.Grammar.Added
import RecordGrammar.Proofs.Grammar.References

/-!
# Which field a key rule belongs to

`keyRules_own`: the paths that fields get differ from each other in the whole run, and the rule of a field starts with the
field's key and is referred to once, where the field stands in its object. This is so in the table, and in the rules as they
are read from its text if no string has a raw format. The text of a raw format can name any rule
(`keyRule_named_by_fragment`).
-/

namespace RecordGrammar
open Reading

variable {settings : GrammarSettings}

/-! ### The rule that an expression stands in -/

/-- What is compiled at a path stands in the rule of that name, or in the rule of the field at the path, behind the key. -/
inductive Holds (t : RuleTable) (p : String) (e : Expr) : String → Prop
  | own (h : t.body? p = some e) : Holds t p e p
  | field {key : String} (h : t.body? (keyName p) = some (fieldExpr key e)) : Holds t p e (keyName p)

theorem Holds.of_extends {t t' : RuleTable} {p n : String} {e : Expr} (h : Holds t p e n) (hext : t.Extends t') :
    Holds t' p e n := by
  cases h with
  | own h => exact .own (hext.body? h)
  | field h => exact .field (hext.body? h)

/-- What the run gives at a visit is what it gives in the end, or some rule holds it. -/
theorem Compiles.holds {s s₁ : Shape} {path p : String} {t t' t₁ t₂ : RuleTable} {e e₁ : Expr} {pos : Position}
    (hc : Compiles settings s path t e t') (hv : Visits settings s path t pos s₁ p t₁) (h : Compiles settings s₁ p t₁ e₁ t₂)
    (hne : e₁ ≠ .rule p) : (p = path ∧ e = e₁) ∨ ∃ n, Holds t' p e₁ n := by
  induction hv generalizing e t' with
  | here => exact .inl ⟨rfl, (hc.det h).1⟩
  | element hnew _ ih =>
    refine .inr ?_
    cases hc with
    | sharedArray hold => rw [hnew] at hold; cases hold
    | array _ helem _ =>
      rcases ih helem h hne with ⟨rfl, rfl⟩ | ⟨n, hholds⟩
      · have hnew := helem.path_not_mem_names (RuleTable.contains_eq_false_iff.mp hnew) hne
        rw [if_neg hne, RuleTable.ensure_of_not_mem hnew]
        exact ⟨_, .own (RuleTable.body?_push hnew)⟩
      · refine ⟨n, hholds.of_extends ?_⟩
        split
        · exact .refl _
        · exact RuleTable.extends_ensure ..
  | field hfield _ ih =>
    refine .inr ?_
    cases hc with
    | object hfields =>
      obtain ⟨value, u, hvalue, hkey, hext⟩ := hfields.reaches hfield
      rcases ih hvalue h hne with ⟨rfl, rfl⟩ | ⟨n, hholds⟩
      · exact ⟨_, .field (hext.body? (RuleTable.body?_push hkey))⟩
      · exact ⟨n, hholds.of_extends ((RuleTable.extends_push ..).trans hext)⟩

theorem finishTable_holds {shape s : Shape} {p : String} {t t₁ t₂ : RuleTable} {e e₁ : Expr} {pos : Position}
    (hc : Compiles settings shape "root" (seedTable settings) e t)
    (hv : Visits settings shape "root" (seedTable settings) pos s p t₁) (h : Compiles settings s p t₁ e₁ t₂)
    (hne : e₁ ≠ .rule p) : ∃ n, Holds (finishTable settings e t) p e₁ n := by
  rcases hc.holds hv h hne with ⟨rfl, rfl⟩ | ⟨n, hholds⟩
  · have hroot := hc.path_not_mem_names root_not_mem_seedTable hne
    exact ⟨_, .own ((finishTable_extends_of_ne t hne).body? (RuleTable.body?_push hroot))⟩
  · exact ⟨n, hholds.of_extends (finishTable_extends e t)⟩

/-! ### The parts of an object -/

namespace CompilesFields
variable {fields : List (Field Shape)} {path p : String} {used keys : List String} {t t' t₁ : RuleTable} {i : Nat} {f : Field Shape}

theorem length_keys : ∀ {fields : List (Field Shape)} {used keys : List String} {t : RuleTable},
    CompilesFields settings fields path used t keys t' → keys.length = fields.length
  | _, _, _, _, .nil => rfl
  | _, _, _, _, .cons _ _ hrest => congrArg (· + 1) hrest.length_keys

/-- In an object, the rule of a field stands where the field stands. -/
theorem getElem?_keys (h : CompilesFields settings fields path used t keys t')
    (hreach : Reaches settings fields path used t i f p t₁) : keys[i]? = some (keyName p) ∧ fields[i]? = some f := by
  induction hreach generalizing keys with
  | head =>
    cases h with
    | cons => exact ⟨rfl, rfl⟩
  | tail hvalue _ _ ih =>
    cases h with
    | cons hvalue' _ hrest =>
      obtain ⟨rfl, rfl⟩ := hvalue.det hvalue'
      exact ih hrest

end CompilesFields

/-! ### Rules read back -/

namespace Expr

theorem canonical_field (name : String) (value : Expr) : (fieldExpr name value).canonical = fieldExpr name value.canonical :=
  canonical_row _ _

theorem canonical_object (keys : List String) : (objectExpr keys).canonical = objectExpr keys := by
  have hfields : ((keys.map rule).intersperse (row .spaced [word ",", .space])).map canonical =
      (keys.map rule).intersperse (row .spaced [word ",", .space]) := by
    induction keys with
    | nil => rfl
    | cons k keys ih =>
      cases keys with
      | nil => rfl
      | cons k' keys =>
        simp only [List.map_cons, List.intersperse_cons_cons] at ih ⊢
        rw [ih]
        rfl
  rw [objectExpr, canonical_row, List.map_append, List.map_append, hfields]
  rfl

end Expr

theorem Holds.canonical {t : RuleTable} {p n : String} {e : Expr} (h : Holds t p e n) : Holds t.canonical p e.canonical n := by
  cases h with
  | own h => exact .own (by rw [RuleTable.body?_canonical, h]; rfl)
  | field h => exact .field (by rw [RuleTable.body?_canonical, h, ← Expr.canonical_field]; rfl)

theorem Holds.referrer {t : RuleTable} {p n m : String} {keys : List String} (h : Holds t p (objectExpr keys) n) (hm : m ∈ keys)
    (hspace : m ≠ "space") : n ∈ t.referrers m := by
  have hobject : m ∈ (objectExpr keys).ruleNames := by
    rw [← List.count_pos_iff, Expr.count_ruleNames_object hspace]
    exact List.count_pos_iff.mpr hm
  refine RuleTable.mem_referrers.mpr ?_
  cases h with
  | own h => exact ⟨_, RuleTable.mem_rules_of_body? h, hobject⟩
  | field h =>
    refine ⟨_, RuleTable.mem_rules_of_body? h, ?_⟩
    rw [← List.count_pos_iff, Expr.count_ruleNames_field hspace]
    exact List.count_pos_iff.mpr hobject

/-! ### The main result -/

/-- No two fields have one path. -/
def FieldPathsDiffer (settings : GrammarSettings) (shape : Shape) : Prop :=
  ∀ (pos pos' : Position) (i j : Nat) (s s' : Shape) (p : String) (t t' : RuleTable),
    Visits settings shape "root" (seedTable settings) (pos ++ [Step.field i]) s p t →
    Visits settings shape "root" (seedTable settings) (pos' ++ [Step.field j]) s' p t' →
    pos ++ [Step.field i] = pos' ++ [Step.field j]

/-- The rule of each field starts with the key of the field, and there is one reference to it: in the rule that holds the
object, where the field stands in the object. -/
def OwnsKeyRules (settings : GrammarSettings) (shape : Shape) (rules : RuleTable) : Prop :=
  ∀ (pos : Position) (i : Nat) (s : Shape) (p : String) (t : RuleTable),
    Visits settings shape "root" (seedTable settings) (pos ++ [Step.field i]) s p t →
    ∃ name fields q t₀ f value keys holder,
      Visits settings shape "root" (seedTable settings) pos (.object name fields) q t₀ ∧ fields[i]? = some f ∧
      rules.body? (keyName p) = some (fieldExpr f.name value) ∧
      Holds rules q (objectExpr keys) holder ∧ keys.length = fields.length ∧ keys[i]? = some (keyName p) ∧
      rules.referrers (keyName p) = [holder]

theorem OwnsKeyRules.canonical {shape : Shape} {rules : RuleTable} (h : OwnsKeyRules settings shape rules) :
    OwnsKeyRules settings shape rules.canonical := by
  intro pos i s p t hv
  obtain ⟨name, fields, q, t₀, f, value, keys, holder, hobject, hf, hbody, hholds, hlength, hkey, href⟩ := h pos i s p t hv
  refine ⟨name, fields, q, t₀, f, value.canonical, keys, holder, hobject, hf, ?_, ?_, hlength, hkey, ?_⟩
  · rw [RuleTable.body?_canonical, hbody, ← Expr.canonical_field]
    rfl
  · have hholds := hholds.canonical
    rwa [Expr.canonical_object] at hholds
  · rw [RuleTable.referrers_canonical, href]

theorem ownsKeyRules_finishTable {shape : Shape} {e : Expr} {t : RuleTable}
    (hc : Compiles settings shape "root" (seedTable settings) e t) : OwnsKeyRules settings shape (finishTable settings e t) := by
  intro pos i s p t₁ hv
  obtain ⟨name, fields, q, t₀, f, hobject, hreach, rfl⟩ := hv.of_field
  obtain ⟨_, t₂, hcompiled, hext⟩ := hc.visits hobject
  obtain ⟨holder, hholds⟩ := finishTable_holds hc hobject hcompiled <| by
    cases hcompiled with
    | object => exact objectExpr_ne_rule
  cases hcompiled with
  | object hfields =>
    obtain ⟨value, t₃, -, hkey, hpush⟩ := hfields.reaches hreach
    obtain ⟨hkeys, hf⟩ := hfields.getElem?_keys hreach
    have hbody : t.body? (keyName p) = some (fieldExpr f.name value) := (hpush.trans hext).body? (RuleTable.body?_push hkey)
    refine ⟨name, fields, q, t₀, f, value, _, holder, hobject, hf, (finishTable_extends e t).body? hbody, hholds,
      hfields.length_keys, hkeys, ?_⟩
    -- there is one reference in all, and it is this one
    obtain ⟨n, hn⟩ := List.length_eq_one_iff.mp (hc.length_referrers (RuleTable.mem_names_of_body? hbody))
    have hmem := hholds.referrer (List.mem_of_getElem? hkeys) (keyName_ne p (by decide))
    rw [hn, List.mem_singleton] at hmem
    rw [hn, hmem]

/-- The search for a path always ends, no two fields get one path, and the rule of a field starts with the field's key and
is referred to once, at the place of the field; also in the text of the grammar, if no raw format adds text of its own. -/
theorem keyRules_own {shape : Shape} {table : RuleTable} (h : (shape.grammar settings).1 = .ok table) :
    (∀ t used path name, Searches t used (path ++ "-" ++ Segment.ofName name) 0 (fieldPath t used path name)) ∧
    FieldPathsDiffer settings shape ∧ OwnsKeyRules settings shape table ∧
    (shape.every Shape.hasNoRawFormat = true → ∃ read, readRules table.render = some read ∧ OwnsKeyRules settings shape read) := by
  have hread := readRules_grammar_of_noRawFormat h
  obtain ⟨e, t, hc, rfl⟩ := exists_compiles_of_grammar h
  have hown := ownsKeyRules_finishTable hc
  refine ⟨?_, ?_, hown, ?_⟩
  · intro t used path name
    exact searches_iff.mpr rfl
  · intro pos pos' i j s s' p t₁ t₂ hv hv'
    exact hv.field_path_inj hc root_not_mem_seedTable hv'
  · intro hraws
    exact ⟨_, hread hraws, hown.canonical⟩

/-- Two fields of one name get two rules. -/
theorem keyRules_own_twice :
    ((Shape.object "R" [{ name := "a", type := .scalar .integer "integer" },
        { name := "a", type := .scalar .integer "integer" }]).grammar {}).1 =
      .ok (finishTable {} (objectExpr ["root-a-kv", "root-a-2-kv"])
        (((seedTable {}).push "root-a-kv" (fieldExpr "a" integerExpr)).push "root-a-2-kv" (fieldExpr "a" integerExpr))) ∧
    OwnsKeyRules {} (.object "R" [{ name := "a", type := .scalar .integer "integer" },
        { name := "a", type := .scalar .integer "integer" }])
      (finishTable {} (objectExpr ["root-a-kv", "root-a-2-kv"])
        (((seedTable {}).push "root-a-kv" (fieldExpr "a" integerExpr)).push "root-a-2-kv" (fieldExpr "a" integerExpr))) := by
  have h : ((Shape.object "R" [{ name := "a", type := .scalar .integer "integer" },
      { name := "a", type := .scalar .integer "integer" }]).grammar {}).1 =
      .ok (finishTable {} (objectExpr ["root-a-kv", "root-a-2-kv"])
        (((seedTable {}).push "root-a-kv" (fieldExpr "a" integerExpr)).push "root-a-2-kv" (fieldExpr "a" integerExpr))) := by
    rfl
  exact ⟨h, (keyRules_own h).2.2.1⟩

/-- The text of a raw format is the name of another field's key rule, and stands in the grammar as it is. -/
theorem keyRule_named_by_fragment :
    ∃ table read, ((Shape.object "R" [{ name := "a", type := .scalar .integer "integer" },
        { name := "b", type := .string { format := some "gbnf:root-a-kv" } }]).grammar {}).1 = .ok table ∧
      readRules table.render = some read ∧ read.referrers "root-a-kv" = ["root-b", "root"] ∧
      ¬ OwnsKeyRules {} (.object "R" [{ name := "a", type := .scalar .integer "integer" },
        { name := "b", type := .string { format := some "gbnf:root-a-kv" } }]) read := by
  -- only the line of the raw format has to be followed, the others are proper
  have hline : RuleTable.readLines [("root-b", .raw "root-a-kv")] = some [("root-b", .rule "root-a-kv")] := by rfl
  have hfront : ((seedTable {}).push "root-a-kv" (fieldExpr "a" integerExpr)).Proper :=
    (proper_seedTable {}).push (by decide) (Expr.inRow_field "a" (Expr.inRow_scalar .integer)).1.choice_of_row
  have hvalue : (fieldExpr "b" (.rule "root-b")).InRow := Expr.inRow_field "b" (Expr.readable_rule (by decide)).inRow
  have hobject : (objectExpr ["root-a-kv", "root-b-kv"]).InRow := Expr.inRow_object (by decide)
  have hrest : ∀ r ∈ [("root-b-kv", fieldExpr "b" (.rule "root-b")), ("root", objectExpr ["root-a-kv", "root-b-kv"])],
      IsName r.1 ∧ r.2.Readable .choice :=
    List.forall_mem_cons.mpr ⟨⟨(by decide : IsName "root-b-kv"), hvalue.1.choice_of_row⟩,
      List.forall_mem_singleton.mpr ⟨(by decide : IsName "root"), hobject.1.choice_of_row⟩⟩
  have hread := RuleTable.readRules_parts (List.cons_ne_nil _ _) (RuleTable.readLines_proper hfront) hline
    (RuleTable.readLines_proper hrest)
  refine ⟨_, _, by rfl, hread, by rfl, fun hown => ?_⟩
  have hpath : keyName (fieldPath (seedTable {}) [] "root" "a") = "root-a-kv" := by rfl
  obtain ⟨_, _, _, _, _, _, _, holder, -, -, -, -, -, -, hone⟩ := hown [] 0 _ _ _ (.field .head .here)
  rw [hpath] at hone
  have hlength := congrArg List.length hone
  cases hlength

end RecordGrammar
