import RecordGrammar.Proofs.Grammar.GrammarText
import RecordGrammar.Sample

/-!
# Samples whose placeholders are filled in

`Sample.layout` lists the pieces that a sample is made of: what stays, the placeholders with the shapes they stand for, and
the comments (`sample_eq_layout`). Filled in, a layout is derived from `root` if the white space of the grammar holds the
line breaks of the sample with their indentation (`derives_filled_layout`). A grammar asks for white space behind every
token, so the induction over the run says what a filled layout is together with the white space behind it.
-/

namespace RecordGrammar
open RecordGrammar.Expr Reading

/-! ### Layouts -/

namespace Sample

inductive Piece where
  | text (s : String)
  | hole (shape : Shape) (placeholder : String)
  | comment (s : String)

def Piece.shown : Piece → String
  | text s => s
  | hole _ placeholder => placeholder
  | comment s => s

/-- What a sample of the pieces looks like. -/
def shownAll (pieces : List Piece) : String := String.join (pieces.map Piece.shown)

def newline (settings : SampleSettings) : String := if settings.prettyPrint then "\n" else ""

/-- The end of a line and the indentation of the next one. -/
def breakText (settings : SampleSettings) (level : Nat) : String := newline settings ++ indentation settings level

/-- The placeholder of a shape that has no parts. -/
def leafText (settings : SampleSettings) : Shape → String
  | .string text => inQuotes (placeholder settings.delimiters (stringText text))
  | .scalar kind _ => scalarText settings.delimiters kind
  | .enum _ values => inQuotes (placeholder settings.delimiters ("|".intercalate values))
  | _ => ""

mutual

/-- The pieces of the sample of a shape without arrays. -/
def layout (settings : SampleSettings) (level : Nat) : Shape → List Piece
  | .object _ [] => [.text "\x7b\x7d"]
  | .object _ (f :: fields) =>
    .text "\x7b" :: fieldLayouts settings level (f :: fields) ++ [.text (breakText settings level), .text "\x7d"]
  | s => [.hole s (leafText settings s)]

/-- The pieces of the fields of an object that ends at the given level, each with the line break before it. -/
def fieldLayouts (settings : SampleSettings) (level : Nat) : List (Field Shape) → List Piece
  | [] => []
  | ⟨name, type, description⟩ :: rest =>
    .text (breakText settings (level + 1)) :: .text (Json.literal name ++ ": ") ::
      layout settings (level + 1) type ++
      .text (if rest.isEmpty then "" else ",") ::
      .comment (if settings.prettyPrint then comment description type else "") ::
      fieldLayouts settings level rest

end

end Sample

namespace Shape

/-- Whether the shape is anything but an array. -/
def isNoArray : Shape → Bool
  | array _ _ _ _ => false
  | _ => true

mutual

/-- The number of objects with fields that stand in one another. -/
def depth : Shape → Nat
  | object _ [] => 0
  | object _ (f :: fields) => fieldDepth (f :: fields) + 1
  | _ => 0

/-- The greatest depth of the types of the fields. -/
def fieldDepth : List (Field Shape) → Nat
  | [] => 0
  | ⟨_, type, _⟩ :: rest => max type.depth (fieldDepth rest)

end

end Shape

namespace Sample
variable {settings : SampleSettings}

theorem shownAll_append (ps qs : List Piece) : shownAll (ps ++ qs) = shownAll ps ++ shownAll qs := by
  simp only [shownAll, List.map_append, String.join_append]

theorem shownAll_cons (p : Piece) (ps : List Piece) : shownAll (p :: ps) = p.shown ++ shownAll ps := by
  simp only [shownAll, List.map_cons, String.join_cons]

theorem shownAll_nil : shownAll [] = "" := rfl

/-- Lines joined by line breaks, with a line break before the first one. -/
theorem newline_intercalate (sep : String) {lines : List String} (h : lines ≠ []) :
    sep ++ sep.intercalate lines = String.join (lines.map (sep ++ ·)) := by
  induction lines with
  | nil => exact absurd rfl h
  | cons line lines ih =>
    cases lines with
    | nil => simp
    | cons line' lines =>
      rw [String.intercalate_cons_cons, List.map_cons, String.join_cons, ← ih (List.cons_ne_nil _ _)]
      simp only [String.append_assoc]

mutual

/-- The sample of a shape without arrays is its layout. -/
theorem shapeText_eq_layout : ∀ {s : Shape} (level : Nat) (fieldName : String), s.every Shape.isNoArray = true →
    s.every Shape.isKnown = true → shapeText settings level fieldName s = .ok (shownAll (layout settings level s))
  | .string text, level, fieldName, _, _ => by
    simp only [shapeText, layout, shownAll_cons, shownAll_nil, Piece.shown, leafText, String.append_empty]
  | .scalar kind name, level, fieldName, _, _ => by
    simp only [shapeText, layout, shownAll_cons, shownAll_nil, Piece.shown, leafText, String.append_empty]
  | .enum name values, level, fieldName, _, _ => by
    simp only [shapeText, layout, shownAll_cons, shownAll_nil, Piece.shown, leafText, String.append_empty]
  | .array _ _ _ _, _, _, h, _ => nomatch Shape.every_self h
  | .custom _, _, _, _, h => nomatch Shape.every_self h
  | .object name [], level, fieldName, _, _ => by
    simp only [shapeText, fieldLines, layout, shownAll_cons, shownAll_nil, Piece.shown, String.append_empty]
    rfl
  | .object name (f :: fields), level, fieldName, h, hk => by
    obtain ⟨lines, hlines, hne, hshown⟩ := fieldLines_eq_layouts level (Shape.every_fields h) (Shape.every_fields hk)
    have hlines' : newline settings ++ (newline settings).intercalate lines = _ :=
      newline_intercalate _ (hne (List.cons_ne_nil f fields))
    have htext : objectText settings level lines = "\x7b" ++ (newline settings ++ (newline settings).intercalate lines) ++
        breakText settings level ++ "\x7d" := by
      simp only [objectText, if_neg (hne (List.cons_ne_nil f fields)), breakText, newline, String.append_assoc]
    rw [shapeText, hlines, layout]
    change Except.ok (objectText settings level lines) = _
    rw [htext, hlines', hshown]
    simp only [List.cons_append, shownAll_cons, shownAll_append, shownAll_nil, Piece.shown, String.append_assoc,
      String.append_empty]

/-- The lines of fields, each behind a line break, are the layouts of the fields. -/
theorem fieldLines_eq_layouts : ∀ {fields : List (Field Shape)} (level : Nat),
    Shape.everyField Shape.isNoArray fields = true → Shape.everyField Shape.isKnown fields = true →
    ∃ lines, fieldLines settings level fields = .ok lines ∧ (fields ≠ [] → lines ≠ []) ∧
      String.join (lines.map (newline settings ++ ·)) = shownAll (fieldLayouts settings level fields)
  | [], _, _, _ => ⟨[], rfl, fun h => absurd rfl h, rfl⟩
  | ⟨name, type, description⟩ :: rest, level, h, hk => by
    have htype := shapeText_eq_layout (level + 1) name (Shape.everyField_of_mem h _ List.mem_cons_self)
      (Shape.everyField_of_mem hk _ List.mem_cons_self)
    obtain ⟨lines, hlines, -, hshown⟩ := fieldLines_eq_layouts level (Shape.everyField_tail h) (Shape.everyField_tail hk)
    rw [fieldLines, htype, hlines]
    refine ⟨_, rfl, fun _ => List.cons_ne_nil _ _, ?_⟩
    rw [List.map_cons, String.join_cons, hshown]
    simp only [fieldLayouts, List.cons_append, shownAll_cons, shownAll_append, Piece.shown, breakText, String.append_assoc]

end

end Sample

variable {settings : GrammarSettings} {sample : SampleSettings}

mutual

/-- What has been compiled holds no unknown kinds outside arrays. -/
theorem Compiles.every_isKnown : ∀ {s : Shape} {path : String} {t t' : RuleTable} {e : Expr},
    Compiles settings s path t e t' → s.every Shape.isNoArray = true → s.every Shape.isKnown = true
  | _, _, _, _, _, .namedString _, _ | _, _, _, _, _, .plainString _, _ | _, _, _, _, _, .scalar, _
  | _, _, _, _, _, .enum, _ => rfl
  | _, _, _, _, _, .sharedArray _ _, h | _, _, _, _, _, .array _ _ _, h => nomatch Shape.every_self h
  | _, _, _, _, _, .object h, hflat => by
    rw [Shape.every, Bool.and_eq_true]
    exact ⟨rfl, h.every_isKnown (Shape.every_fields hflat)⟩

theorem CompilesFields.every_isKnown : ∀ {fields : List (Field Shape)} {path : String} {used keys : List String}
    {t t' : RuleTable}, CompilesFields settings fields path used t keys t' →
    Shape.everyField Shape.isNoArray fields = true → Shape.everyField Shape.isKnown fields = true
  | _, _, _, _, _, _, .nil, _ => rfl
  | ⟨_, _, _⟩ :: _, _, _, _, _, _, .cons hvalue _ hrest, hflat => by
    rw [Shape.everyField, Bool.and_eq_true]
    exact ⟨hvalue.every_isKnown (Shape.everyField_of_mem hflat _ List.mem_cons_self),
      hrest.every_isKnown (Shape.everyField_tail hflat)⟩

end

/-! ### What may be filled in -/

/-- The texts that the grammar of the shape alone derives. -/
def Shape.admitted (settings : GrammarSettings) (s : Shape) : Language Char :=
  {w | ∃ table, (s.grammar settings).1 = .ok table ∧ Derives table.body? (rule "root") w}

/-- Texts that do not end in white space. -/
def trimmed : Language Char := {w | ∀ c, w.getLast? = some c → Text.isBlank c = false}

/-- What may stand in the place of a piece: for a placeholder a text of its shape, and for a comment nothing. -/
def Sample.Piece.fillings (settings : GrammarSettings) : Piece → Language Char
  | text s => just s
  | hole s _ => {w | w ∈ s.admitted settings ∧ w ∈ trimmed}
  | comment _ => 1

def Sample.filled (settings : GrammarSettings) (pieces : List Sample.Piece) : Language Char :=
  (pieces.map (Sample.Piece.fillings settings)).prod

/-- The texts of a shape without parts, without the white space behind it. An enumeration without values leaves its place
empty. -/
def Shape.leafTexts (settings : GrammarSettings) : Shape → Language Char
  | .string text => text.texts settings
  | .scalar kind _ => kind.texts
  | .enum _ [] => 1
  | .enum _ (v :: vs) => literalsOf (v :: vs)
  | _ => 0

/-- Whether the shape has no parts. -/
def Shape.isLeaf : Shape → Bool
  | .array _ _ _ _ | .object _ _ => false
  | _ => true

/-- The expression of a shape without parts stands for the same texts wherever it is compiled. -/
theorem Compiles.texts_leaf {s : Shape} {path : String} {t t' table : RuleTable} {e : Expr}
    (h : Compiles settings s path t e t') (hleaf : s.isLeaf = true) (hraw : s.hasNoRawFormat = true) (hpath : path ∉ t.names)
    (hext : t'.Extends table) (htok : HasTokens settings table.body?) :
    e.texts table.body? = s.leafTexts settings * gapTexts := by
  cases h with
  | @namedString text _ _ body h =>
    have hraws : ∀ r, text.activeFormat? ≠ some (.raw r) := fun r hr => by
      simp [Shape.hasNoRawFormat, hr] at hraw
    rw [RuleTable.ensure_of_not_mem hpath] at hext
    rw [texts_rule (hext.body? (RuleTable.body?_push hpath)), htok.texts_ruleBody h hraws, Shape.leafTexts]
  | plainString h => rw [htok.texts_plain h, Shape.leafTexts]
  | @scalar kind => rw [htok.texts_scalar kind, Shape.leafTexts]
  | @enum _ _ values =>
    cases values with
    | nil =>
      rw [anyText, List.map_nil, oneOf, texts_row, List.map_cons, List.map_singleton, List.prod_cons, List.prod_singleton,
        texts_group, texts_empty, htok.texts_space, Shape.leafTexts]
    | cons v vs => rw [htok.texts_anyText (List.cons_ne_nil v vs), Shape.leafTexts]
  | sharedArray | array | object => cases hleaf

theorem Shape.admitted_leaf {s : Shape} (hleaf : s.isLeaf = true) (hraw : s.hasNoRawFormat = true) :
    s.admitted settings ≤ s.leafTexts settings * gapTexts := by
  rintro w ⟨table, hgrammar, hw⟩
  obtain ⟨e, t, hc, rfl⟩ := exists_compiles_of_grammar hgrammar
  have hext : t.Extends (finishTable settings e t) := finishTable_extends e t
  have htok : HasTokens settings (finishTable settings e t).body? :=
    (hasTokens_seedTable settings).extends (hc.table_extends.trans hext)
  rw [← hc.texts_leaf hleaf hraw root_not_mem_seedTable hext htok, ← hc.texts_root]
  exact hw

/-- A text without white space at its end keeps that white space off. -/
theorem mem_of_trimmed {l : Language Char} {w : List Char} (hw : w ∈ l * gapTexts) (ht : w ∈ trimmed) : w ∈ l := by
  obtain ⟨u, hu, g, hg, rfl⟩ := Language.mem_mul.mp hw
  rcases hlast : g.getLast? with _ | c
  · rw [List.getLast?_eq_none_iff.mp hlast, List.append_nil]
    exact hu
  · have hblank := ht c (by rw [List.getLast?_append, hlast]; rfl)
    have hgap : gapTexts ∈ madeOf Text.isBlank := gapTexts_mem_madeOf (by decide) (by decide) (by decide)
    rw [hgap g hg c (List.mem_of_getLast? hlast)] at hblank
    cases hblank

/-- What is filled in for a shape without parts is one of its texts. -/
theorem Sample.Piece.fillings_leaf {s : Shape} (hleaf : s.isLeaf = true) (hraw : s.hasNoRawFormat = true)
    (shown : String) : (Piece.hole s shown).fillings settings ≤ s.leafTexts settings :=
  fun _ hw => mem_of_trimmed (Shape.admitted_leaf hleaf hraw hw.1) hw.2

/-! ### Layouts in the grammar -/

/-- The white space of the grammar holds the line break before a line at that level. -/
def Sample.FitsGap (sample : SampleSettings) (level : Nat) : Prop :=
  (Sample.indentation sample level).length ≤ 20 ∧ ∀ c ∈ (Sample.indentation sample level).toList, c = ' ' ∨ c = '\t'

theorem Sample.FitsGap.just_break_le {level : Nat} (h : Sample.FitsGap sample level) :
    just (Sample.breakText sample level) ≤ gapTexts := by
  rw [Sample.breakText, Sample.newline]
  by_cases hpretty : sample.prettyPrint = true
  · have hindent : just (Sample.indentation sample level) ≤ runs (oneChar fun c => c = ' ' ∨ c = '\t') 0 20 := by
      intro w hw
      rw [mem_just.mp hw]
      exact ⟨_, Nat.zero_le _, h.1, mem_oneChar_pow h.2⟩
    rw [if_pos hpretty, just_append, gapTexts]
    exact le_add_left (mul_le_mul' le_rfl hindent)
  · rw [if_neg hpretty, Sample.indentation, if_neg hpretty]
    exact one_le_gapTexts

/-- The key of a field with the blank behind the colon. -/
theorem just_key_le (name : String) : just (Json.literal name ++ ": ") ≤ token (Json.literal name) * token ":" := by
  have hblank : just " " ≤ gapTexts := by
    rw [gapTexts, add_right_comm]
    exact le_add_left le_rfl
  have hcolon : just ": " = just ":" * just " " := just_append ":" " "
  rw [just_append, hcolon]
  exact mul_le_mul' (just_le_token _) (mul_le_mul' le_rfl hblank)

namespace Sample

theorem filled_nil : filled settings [] = 1 := rfl

theorem filled_cons (p : Piece) (ps : List Piece) : filled settings (p :: ps) = p.fillings settings * filled settings ps :=
  List.prod_cons

theorem filled_append (ps qs : List Piece) : filled settings (ps ++ qs) = filled settings ps * filled settings qs := by
  rw [filled, List.map_append, List.prod_append]
  rfl

end Sample

namespace Sample

theorem filled_object {name : String} {f : Field Shape} {fields : List (Field Shape)} {level : Nat} :
    filled settings (layout sample level (.object name (f :: fields))) =
      just "\x7b" * filled settings (fieldLayouts sample level (f :: fields)) * just (breakText sample level) * just "\x7d" := by
  simp only [layout, List.cons_append, filled_cons, filled_append, filled_nil, Piece.fillings, mul_one, mul_assoc]

theorem filled_field {f : Field Shape} {rest : List (Field Shape)} {level : Nat} :
    filled settings (fieldLayouts sample level (f :: rest)) =
      just (breakText sample (level + 1)) * (just (Json.literal f.name ++ ": ") * filled settings (layout sample (level + 1) f.type)) *
        just (if rest.isEmpty then "" else ",") * filled settings (fieldLayouts sample level rest) := by
  simp only [fieldLayouts, List.cons_append, filled_cons, filled_append, Piece.fillings, one_mul, mul_assoc]

end Sample

/-- White space before the fields belongs to the opening brace, that behind them to the fields themselves. -/
theorem braces_le {filled fields before behind : Language Char} (h : filled * gapTexts ≤ before * fields)
    (hbefore : before ≤ gapTexts) (hbehind : behind ≤ gapTexts) :
    just "\x7b" * filled * behind * just "\x7d" * gapTexts ≤ token "\x7b" * fields * token "\x7d" := by
  have hinner : filled * behind ≤ gapTexts * fields :=
    (mul_le_mul' le_rfl hbehind).trans (h.trans (mul_le_mul' hbefore le_rfl))
  calc
    just "\x7b" * filled * behind * just "\x7d" * gapTexts
      = just "\x7b" * (filled * behind) * (just "\x7d" * gapTexts) := by simp only [mul_assoc]
    _ ≤ just "\x7b" * (gapTexts * fields) * (just "\x7d" * gapTexts) := mul_le_mul' (mul_le_mul' le_rfl hinner) le_rfl
    _ = token "\x7b" * fields * token "\x7d" := by simp only [token, mul_assoc]

/-- White space before the next field belongs to the comma. -/
theorem comma_le {filled rest field fields before : Language Char} (h : filled ≤ field) (hrest : rest * gapTexts ≤ before * fields)
    (hbefore : before ≤ gapTexts) : filled * just "," * rest * gapTexts ≤ field * commaTexts * fields := by
  calc
    filled * just "," * rest * gapTexts = filled * just "," * (rest * gapTexts) := by simp only [mul_assoc]
    _ ≤ field * just "," * (gapTexts * fields) :=
      mul_le_mul' (mul_le_mul' h le_rfl) (hrest.trans (mul_le_mul' hbefore le_rfl))
    _ = field * commaTexts * fields := by simp only [commaTexts, token, mul_assoc]

theorem Compiles.filled_leaf_le {s : Shape} {path shown : String} {t t' table : RuleTable} {e : Expr}
    (h : Compiles settings s path t e t') (hleaf : s.isLeaf = true) (hraw : s.every Shape.hasNoRawFormat = true)
    (hpath : path ∉ t.names) (hext : t'.Extends table) (htok : HasTokens settings table.body?) :
    Sample.filled settings [.hole s shown] * gapTexts ≤ e.texts table.body? := by
  have hraw := Shape.every_self hraw
  rw [h.texts_leaf hleaf hraw hpath hext htok, Sample.filled_cons, Sample.filled_nil, mul_one]
  exact mul_le_mul' (Sample.Piece.fillings_leaf hleaf hraw shown) le_rfl

mutual

/-- A filled layout, with the white space behind it, is a text of the expression that a run gives. -/
theorem Compiles.filled_le : ∀ {s : Shape} {path : String} {t t' table : RuleTable} {e : Expr} {level : Nat},
    Compiles settings s path t e t' → s.every Shape.isNoArray = true → s.every Shape.hasNoRawFormat = true →
    path ∉ t.names → t'.Extends table → HasTokens settings table.body? →
    (∀ k ≤ s.depth, Sample.FitsGap sample (level + k)) →
    Sample.filled settings (Sample.layout sample level s) * gapTexts ≤ e.texts table.body?
  | .string _, _, _, _, _, _, _, h, _, hraw, hpath, hext, htok, _ => h.filled_leaf_le rfl hraw hpath hext htok
  | .scalar _ _, _, _, _, _, _, _, h, _, hraw, hpath, hext, htok, _ => h.filled_leaf_le rfl hraw hpath hext htok
  | .enum _ _, _, _, _, _, _, _, h, _, hraw, hpath, hext, htok, _ => h.filled_leaf_le rfl hraw hpath hext htok
  | .array _ _ _ _, _, _, _, _, _, _, _, hflat, _, _, _, _, _ => nomatch Shape.every_self hflat
  | .object _ [], _, _, _, table, _, _, .object .nil, _, _, _, _, htok, _ => by
    have hbraces : just "\x7b\x7d" = just "\x7b" * just "\x7d" := just_append "\x7b" "\x7d"
    rw [htok.texts_object, List.map_nil, joined, mul_one, Sample.layout, Sample.filled_cons, Sample.filled_nil, mul_one,
      Sample.Piece.fillings, hbraces, mul_assoc]
    exact mul_le_mul' (just_le_token _) le_rfl
  | .object _ (f :: fields), _, _, _, table, _, level, .object h, hflat, hraw, _, hext, htok, hfits => by
    have hfields := h.filled_le (Shape.every_fields hflat) (Shape.every_fields hraw) hext htok hfits (List.cons_ne_nil _ _)
    have hopen := (hfits 1 (Nat.le_add_left 1 _)).just_break_le
    have hclose := (hfits 0 (Nat.zero_le _)).just_break_le
    rw [htok.texts_object, Sample.filled_object]
    exact braces_le hfields hopen hclose

theorem CompilesFields.filled_le : ∀ {fields : List (Field Shape)} {path : String} {used keys : List String}
    {t t' table : RuleTable} {level : Nat}, CompilesFields settings fields path used t keys t' →
    Shape.everyField Shape.isNoArray fields = true → Shape.everyField Shape.hasNoRawFormat fields = true →
    t'.Extends table → HasTokens settings table.body? →
    (∀ k ≤ Shape.fieldDepth fields + 1, Sample.FitsGap sample (level + k)) → fields ≠ [] →
    Sample.filled settings (Sample.fieldLayouts sample level fields) * gapTexts ≤
      just (Sample.breakText sample (level + 1)) * joined commaTexts (keys.map fun k => (rule k).texts table.body?)
  | _, _, _, _, _, _, _, _, .nil, _, _, _, _, _, hne => absurd rfl hne
  | ⟨name, type, description⟩ :: rest, path, used, _, t, _, table, level, .cons (u := t₁) (v := value) hvalue hkey hrest,
      hflat, hraw, hext, htok, hfits, _ => by
    have hpush := hrest.table_extends.trans hext
    have hvalue' : Sample.filled settings (Sample.layout sample (level + 1) type) * gapTexts ≤ value.texts table.body? := by
      refine hvalue.filled_le (Shape.everyField_of_mem hflat _ List.mem_cons_self)
        (Shape.everyField_of_mem hraw _ List.mem_cons_self) (fieldPath_not_mem_names _ _ _ _)
        ((RuleTable.extends_push ..).trans hpush) htok fun k hk => ?_
      rw [Nat.add_assoc, Nat.add_comm 1 k]
      refine hfits (k + 1) ?_
      rw [Shape.fieldDepth]
      change k ≤ type.depth at hk
      omega
    have hfield : just (Json.literal name ++ ": ") * Sample.filled settings (Sample.layout sample (level + 1) type) * gapTexts ≤
        (rule (keyName (fieldPath t used path name))).texts table.body? := by
      rw [texts_rule (hpush.body? (RuleTable.body?_push (RuleTable.contains_eq_false_iff.mp hkey))), htok.texts_field,
        mul_assoc]
      exact mul_le_mul' (just_key_le name) hvalue'
    rw [Sample.filled_field, List.map_cons]
    cases rest with
    | nil =>
      cases hrest
      rw [List.map_nil, joined, List.isEmpty_nil, if_pos rfl, just_empty, mul_one, Sample.fieldLayouts, Sample.filled_nil,
        mul_one, mul_assoc]
      exact mul_le_mul' le_rfl hfield
    | cons g rest =>
      have hbreak := (hfits 1 (Nat.le_add_left 1 _)).just_break_le
      have hlater := hrest.filled_le (Shape.everyField_tail hflat) (Shape.everyField_tail hraw) hext htok
        (fun k hk => hfits k (by rw [Shape.fieldDepth]; omega)) (List.cons_ne_nil g rest)
      cases hrest with
      | cons hvalue₂ hkey₂ hrest₂ =>
        have hbare := (le_mul_of_one_le_right' one_le_gapTexts).trans hfield
        rw [List.map_cons, joined, List.isEmpty_cons, if_neg Bool.false_ne_true, mul_assoc, mul_assoc, mul_assoc]
        · refine mul_le_mul' le_rfl ?_
          rw [← mul_assoc, ← mul_assoc]
          exact comma_le hbare hlater hbreak
        · exact List.cons_ne_nil _ _

end

/-! ### The whole sample -/

theorem sample_eq_layout {shape : Shape} {table : RuleTable} (h : (shape.grammar settings).1 = .ok table)
    (hflat : shape.every Shape.isNoArray = true) :
    shape.sample sample = .ok (Sample.shownAll (Sample.layout sample 0 shape)) := by
  obtain ⟨e, t, hc, -⟩ := exists_compiles_of_grammar h
  exact Sample.shapeText_eq_layout 0 shape.displayName hflat (hc.every_isKnown hflat)

/-- A sample is made of the pieces of its layout, and the grammar derives from `root` whatever they are filled in to, if its
white space holds the line breaks of the sample. -/
theorem derives_filled_layout {shape : Shape} {table : RuleTable} (h : (shape.grammar settings).1 = .ok table)
    (hflat : shape.every Shape.isNoArray = true) (hraw : shape.every Shape.hasNoRawFormat = true)
    (hfits : ∀ level ≤ shape.depth, Sample.FitsGap sample level) :
    shape.sample sample = .ok (Sample.shownAll (Sample.layout sample 0 shape)) ∧
    ∃ read, readRules table.render = some read ∧
      ∀ w ∈ Sample.filled settings (Sample.layout sample 0 shape), Derives read.body? (rule "root") w := by
  refine ⟨sample_eq_layout h hflat, table.canonical, readRules_grammar_of_noRawFormat h hraw, fun w hw => ?_⟩
  have hbody : table.canonical.body? = fun n => (table.body? n).map Expr.canonical := funext table.body?_canonical
  obtain ⟨e, t, hc, rfl⟩ := exists_compiles_of_grammar h
  have hext : t.Extends (finishTable settings e t) := finishTable_extends e t
  have htok : HasTokens settings (finishTable settings e t).body? :=
    (hasTokens_seedTable settings).extends (hc.table_extends.trans hext)
  have hle := hc.filled_le hflat hraw root_not_mem_seedTable hext htok fun k hk => by
    rw [Nat.zero_add]
    exact hfits k hk
  have hroot : w ∈ (rule "root").texts (finishTable settings e t).body? := by
    rw [hc.texts_root]
    exact hle (le_mul_of_one_le_right' one_le_gapTexts hw)
  rw [hbody]
  exact Expr.derives_canonical.mpr hroot

/-- Settings that indent by a number of blanks. -/
def SampleSettings.ofBlanks (n : Nat) : SampleSettings where
  indent := String.ofList (List.replicate n ' ')
  indent_blank := fun c hc => by
    rw [String.toList_ofList] at hc
    rw [List.eq_of_mem_replicate hc]
    decide

theorem Sample.indentation_ofBlanks (n level : Nat) :
    (Sample.indentation (.ofBlanks n) level).toList = List.replicate (level * n) ' ' := by
  have hpretty : (SampleSettings.ofBlanks n).prettyPrint = true := rfl
  have hindent : (SampleSettings.ofBlanks n).indent = String.ofList (List.replicate n ' ') := rfl
  rw [Sample.indentation, if_pos hpretty, hindent, String.toList_join, List.flatMap_replicate, String.toList_ofList,
    List.flatten_replicate_replicate]

theorem Sample.fitsGap_ofBlanks {n level : Nat} (h : level * n ≤ 20) : Sample.FitsGap (.ofBlanks n) level := by
  refine ⟨?_, fun c hc => ?_⟩
  · rw [← String.length_toList, Sample.indentation_ofBlanks, List.length_replicate]
    exact h
  · rw [Sample.indentation_ofBlanks] at hc
    exact .inl (List.eq_of_mem_replicate hc)

/-- An object in an object, indented by four blanks. -/
theorem derives_filled_layout_nested :
    ∃ (shape : Shape) (table : RuleTable), shape.depth = 2 ∧ (shape.grammar {}).1 = .ok table ∧
      shape.sample (.ofBlanks 4) = .ok (Sample.shownAll (Sample.layout (.ofBlanks 4) 0 shape)) ∧
      ∃ read, readRules table.render = some read ∧
        ∀ w ∈ Sample.filled {} (Sample.layout (.ofBlanks 4) 0 shape), Derives read.body? (rule "root") w := by
  let shape : Shape := .object "Reply" [{ name := "a", type := .object "Part" [{ name := "b", type := .scalar .boolean "boolean" }] }]
  have hgrammar : (shape.grammar {}).1 = .ok (finishTable {} (objectExpr ["root-a-kv"])
      (((seedTable {}).push "root-a-b-kv" (fieldExpr "b" booleanExpr)).push "root-a-kv"
        (fieldExpr "a" (objectExpr ["root-a-b-kv"])))) := by
    rfl
  have hfits : ∀ level ≤ shape.depth, Sample.FitsGap (.ofBlanks 4) level := by
    intro level hlevel
    change level ≤ 2 at hlevel
    exact Sample.fitsGap_ofBlanks (by omega)
  exact ⟨shape, _, rfl, hgrammar, derives_filled_layout hgrammar rfl rfl hfits⟩

/-! ### Deep indentation -/

theorem length_le_of_mem_gapTexts {g : List Char} (h : g ∈ gapTexts) : g.length ≤ 21 := by
  rcases (Language.mem_add _ _ _).mp h with h | h
  · rcases (Language.mem_add _ _ _).mp h with h | h
    · rw [(Language.mem_one g).mp h]
      exact Nat.zero_le 21
    · rw [mem_just.mp h]
      decide
  · obtain ⟨a, ha, b, ⟨n, -, hn, hb⟩, rfl⟩ := Language.mem_mul.mp h
    have hbreak : a.length = 1 := by
      rw [mem_just.mp ha]
      rfl
    rw [List.length_append, hbreak, length_of_mem_oneChar_pow hb]
    omega

/-- Between the opening brace and the first key of an object there is white space. -/
theorem exists_gap_of_object {name : String} {f : Field Shape} {fields : List (Field Shape)} {w : List Char}
    (h : w ∈ (Shape.object name (f :: fields)).texts settings) : ∃ g ∈ gapTexts, ∃ rest, w = '\x7b' :: (g ++ '"' :: rest) := by
  obtain ⟨fieldName, type, description⟩ := f
  simp only [Shape.texts, Shape.fieldTexts, joined_cons, token, mul_assoc] at h
  obtain ⟨brace, hbrace, w₁, h₁, rfl⟩ := Language.mem_mul.mp h
  obtain ⟨g, hg, w₂, h₂, rfl⟩ := Language.mem_mul.mp h₁
  obtain ⟨key, hkey, w₃, -, rfl⟩ := Language.mem_mul.mp h₂
  refine ⟨g, hg, fieldName.toList.flatMap Json.literalChar ++ ['"'] ++ w₃, ?_⟩
  rw [mem_just.mp hbrace, mem_just.mp hkey, Json.literal, String.toList_ofList, Json.literalChars]
  simp

theorem derives_true {table : RuleTable} (hroot : table.body? "root" = some booleanExpr)
    (hspace : table.body? "space" = some spaceBody) : Derives table.body? (rule "root") "true".toList := by
  have hvalue : Derives table.body? (group (oneOf .spaced [word "true", word "false"])) "true".toList :=
    .group (.altFirst (.literal "true"))
  have hgap : Derives table.body? Expr.space [] := .rule hspace (.altFirst .empty)
  exact .rule hroot (.seq hvalue hgap)

/-- With twenty-one blanks before the key, the sample of an object with one field asks for more white space than the grammar
has. -/
theorem filled_layout_not_derived :
    ∃ (shape : Shape) (sample : SampleSettings) (table read : RuleTable) (w : List Char),
      sample = .ofBlanks 21 ∧ shape.every Shape.isNoArray = true ∧ shape.every Shape.hasNoRawFormat = true ∧
      (shape.grammar {}).1 = .ok table ∧ readRules table.render = some read ∧
      shape.sample sample = .ok (Sample.shownAll (Sample.layout sample 0 shape)) ∧
      w ∈ Sample.filled {} (Sample.layout sample 0 shape) ∧ ¬ Derives read.body? (rule "root") w := by
  let shape : Shape := .object "Reply" [{ name := "ok", type := .scalar .boolean "boolean" }]
  have hgrammar : (shape.grammar {}).1 = .ok (finishTable {} (objectExpr ["root-ok-kv"])
      ((seedTable {}).push "root-ok-kv" (fieldExpr "ok" booleanExpr))) := by
    rfl
  have htrue (shown : String) : "true".toList ∈ Sample.Piece.fillings {} (.hole (.scalar .boolean "boolean") shown) := by
    refine ⟨⟨finishTable {} booleanExpr (seedTable {}), by rfl, derives_true rfl rfl⟩, fun c hc => ?_⟩
    cases hc
    decide
  have hfilled : ('\x7b' :: '\n' :: List.replicate 21 ' ' ++ "\"ok\": true\n\x7d".toList) ∈
      Sample.filled {} (Sample.layout (.ofBlanks 21) 0 shape) := by
    have hfirst : '\n' :: List.replicate 21 ' ' ∈ just (Sample.breakText (.ofBlanks 21) 1) := by
      rw [mem_just, Sample.breakText, String.toList_append, Sample.indentation_ofBlanks]
      rfl
    have hkey : "\"ok\": ".toList ∈ just (Json.literal "ok" ++ ": ") := by
      rw [mem_just]
      decide
    have hlast : ['\n'] ∈ just (Sample.breakText (.ofBlanks 21) 0) := by
      rw [mem_just, Sample.breakText, String.toList_append, Sample.indentation_ofBlanks]
      rfl
    rw [Sample.filled_object, Sample.filled_field, Sample.fieldLayouts, Sample.filled_nil, mul_one, List.isEmpty_nil,
      if_pos rfl, just_empty, mul_one, Sample.layout, Sample.filled_cons, Sample.filled_nil, mul_one]
    · have hopen : ['\x7b'] ∈ just "\x7b" := rfl
      have hclose : ['\x7d'] ∈ just "\x7d" := rfl
      have hfield := Language.append_mem_mul hfirst (Language.append_mem_mul hkey (htrue (Sample.leafText (.ofBlanks 21) (.scalar .boolean "boolean"))))
      have hall := Language.append_mem_mul (Language.append_mem_mul (Language.append_mem_mul hopen hfield) hlast) hclose
      simpa using hall
    · exact nofun
    · exact nofun
  refine ⟨shape, .ofBlanks 21, _, _, _, rfl, rfl, rfl, hgrammar, readRules_grammar_of_noRawFormat hgrammar rfl,
    sample_eq_layout hgrammar rfl, hfilled, fun hw => ?_⟩
  obtain ⟨g, hg, rest, heq⟩ := exists_gap_of_object ((derives_canonical_root hgrammar (by decide) (by decide)).mp hw)
  have hgap : gapTexts ∈ madeOf Text.isBlank := gapTexts_mem_madeOf (by decide) (by decide) (by decide)
  have hlong : g = '\n' :: List.replicate 21 ' ' := by
    have htake := congrArg (List.takeWhile Text.isBlank) (List.cons.inj heq).2
    rw [List.takeWhile_append_of_pos (hgap g hg)] at htake
    have hquote : List.takeWhile Text.isBlank ('"' :: rest) = [] := List.takeWhile_cons_of_neg (by decide)
    rw [hquote, List.append_nil] at htake
    rw [← htake]
    decide +kernel
  have hlength := length_le_of_mem_gapTexts hg
  rw [hlong, List.length_cons, List.length_replicate] at hlength
  omega

end RecordGrammar
