import RecordGrammar.Proofs.Grammar.Segments
import RecordGrammar.Proofs.Grammar.TokenTexts

/-!
# What a grammar means

`Compiles.texts_eq`: where no array finds a rule, the expression that a run gives stands for the texts of the shape, in every
table that holds the rules of the run and those for white space and characters. The induction is over the run; a name
keeps its body in every later table, so what it stands for is settled when its rule is added.
-/

namespace RecordGrammar
open RecordGrammar.Expr

/-- Whether the grammar says on its own what the shape stands for: a raw format is taken over as it is, and
alternatives of an enumeration without values would be the empty text. -/
def Shape.isReadable : Shape → Bool
  | .string text =>
    match text.activeFormat? with
    | some (.raw _) => false
    | _ => true
  | .enum _ values => !values.isEmpty
  | _ => true

/-- Whether the shape is anything but a string of a raw format. -/
def Shape.hasNoRawFormat : Shape → Bool
  | .string text =>
    match text.activeFormat? with
    | some (.raw _) => false
    | _ => true
  | _ => true

theorem Shape.hasNoRawFormat_of_isReadable (s : Shape) (h : s.isReadable = true) : s.hasNoRawFormat = true := by
  cases s with
  | string text => exact h
  | scalar | enum | array | object | custom => rfl

variable {settings : GrammarSettings}

theorem clampedLimits_le (lo hi : Option Nat) (default : Limits) :
    (clampedLimits lo hi default).1 ≤ (clampedLimits lo hi default).2 := Nat.min_le_right _ _

mutual

theorem Compiles.texts_eq : ∀ {s : Shape} {path : String} {t t' table : RuleTable} {e : Expr},
    Compiles settings s path t e t' → Unshared settings s path t → s.every Shape.isReadable = true → path ∉ t.names →
    t'.Extends table → HasTokens settings table.body? → e.texts table.body? = s.texts settings
  | .string text, path, t, _, _, _, .namedString h, _, hread, hpath, hext, htok => by
    rw [RuleTable.ensure_of_not_mem hpath] at hext
    have hraw : ∀ r, text.activeFormat? ≠ some (.raw r) := fun r hr => by
      simp [Shape.every, Shape.isReadable, hr] at hread
    rw [texts_rule (hext.body? (RuleTable.body?_push hpath)), htok.texts_ruleBody h hraw, Shape.texts]
  | _, _, _, _, _, _, .plainString h, _, _, _, _, htok => by
    rw [htok.texts_plain h, Shape.texts]
  | .scalar kind _, _, _, _, _, _, .scalar, _, _, _, _, htok => by
    rw [htok.texts_scalar kind, Shape.texts]
  | _, _, _, _, _, _, .enum, _, hread, _, _, htok => by
    rw [htok.texts_anyText (by simpa [Shape.every, Shape.isReadable] using hread), Shape.texts]
  | _, _, _, _, _, _, .sharedArray hold _, hfresh, _, _, _, _ => by
    rw [hfresh.here] at hold
    cases hold
  | .array element lo hi name, path, t, _, table, _, .array (v := value) hnew helem _, hfresh, hread, _, hext, htok => by
    have hitem : itemName path ∉ t.names := RuleTable.contains_eq_false_iff.mp hnew
    have helement : (rule (itemName path)).texts table.body? = element.texts settings := by
      -- the element's expression is the name of its rule or becomes the body of that rule
      have hval := fun h => helem.texts_eq (hfresh.within (.element hnew .here)) (Shape.every_element hread) hitem h htok
      by_cases hvalue : value = .rule (itemName path)
      · rw [if_pos hvalue] at hext
        exact hvalue ▸ hval hext
      · rw [if_neg hvalue, RuleTable.ensure_of_not_mem (helem.path_not_mem_names hitem hvalue)] at hext
        rw [texts_rule (hext.body? (RuleTable.body?_push (helem.path_not_mem_names hitem hvalue)))]
        exact hval ((RuleTable.extends_push ..).trans hext)
    rw [htok.texts_array _ (clampedLimits_le lo hi settings.items), helement, Shape.texts]
  | .object name fields, _, _, _, _, _, .object h, hfresh, hread, _, hext, htok => by
    rw [htok.texts_object, h.texts_eq (fun hreach => hfresh.within (.field hreach .here)) (Shape.every_fields hread) hext htok,
      Shape.texts]

theorem CompilesFields.texts_eq : ∀ {fields : List (Field Shape)} {path : String} {used keys : List String}
    {t t' table : RuleTable}, CompilesFields settings fields path used t keys t' →
    (∀ {i f p t₁}, Reaches settings fields path used t i f p t₁ → Unshared settings f.type p t₁) →
    Shape.everyField Shape.isReadable fields = true → t'.Extends table → HasTokens settings table.body? →
    keys.map (fun k => (rule k).texts table.body?) = Shape.fieldTexts settings fields
  | _, _, _, _, _, _, _, .nil, _, _, _, _ => by
    rw [Shape.fieldTexts, List.map_nil]
  | ⟨name, type, _⟩ :: rest, path, used, _, t, _, table, .cons (u := t₁) (v := value) hvalue hkey hrest, hfresh, hread,
      hext, htok => by
    have hpush := hrest.table_extends.trans hext
    have hval : value.texts table.body? = type.texts settings :=
      hvalue.texts_eq (hfresh .head) (Shape.everyField_of_mem hread _ List.mem_cons_self)
        (fieldPath_not_mem_names _ _ _ _) ((RuleTable.extends_push ..).trans hpush) htok
    rw [List.map_cons, Shape.fieldTexts, hrest.texts_eq (fun h => hfresh (.tail hvalue hkey h)) (Shape.everyField_tail hread)
      hext htok, texts_rule (hpush.body? (RuleTable.body?_push (RuleTable.contains_eq_false_iff.mp hkey))),
      htok.texts_field, hval]

end

theorem hasTokens_seedTable (settings : GrammarSettings) : HasTokens settings (seedTable settings).body? where
  space := by
    simp [RuleTable.body?, seedTable, List.lookup_cons]
  char := by
    simp [RuleTable.body?, seedTable]

theorem HasTokens.extends {t t' : RuleTable} (h : HasTokens settings t.body?) (hext : t.Extends t') :
    HasTokens settings t'.body? :=
  ⟨hext.body? h.space, hext.body? h.char⟩

/-- The rule `root` of a grammar stands for the same as the expression of the whole shape. -/
theorem Compiles.texts_root {shape : Shape} {e : Expr} {t : RuleTable}
    (h : Compiles settings shape "root" (seedTable settings) e t) :
    (rule "root").texts (finishTable settings e t).body? = e.texts (finishTable settings e t).body? := by
  by_cases he : e = .rule "root"
  · rw [he]
  · have hroot : (t.push "root" e).body? "root" = some e :=
      RuleTable.body?_push (h.path_not_mem_names root_not_mem_seedTable he)
    exact texts_rule ((finishTable_extends_of_ne t he).body? hroot)

/-- The rule `root` of a grammar stands for the texts of the shape. -/
theorem texts_root {shape : Shape} {table : RuleTable} (h : (shape.grammar settings).1 = .ok table)
    (hfree : shape.every Shape.hasFreeSegments = true) (hread : shape.every Shape.isReadable = true) :
    (rule "root").texts table.body? = shape.texts settings := by
  obtain ⟨e, t, hc, rfl⟩ := exists_compiles_of_grammar h
  have hext : t.Extends (finishTable settings e t) := finishTable_extends e t
  have htok : HasTokens settings (finishTable settings e t).body? :=
    (hasTokens_seedTable settings).extends (hc.table_extends.trans hext)
  rw [hc.texts_root]
  exact hc.texts_eq (unshared_of_segments hfree) hread root_not_mem_seedTable hext htok

end RecordGrammar
