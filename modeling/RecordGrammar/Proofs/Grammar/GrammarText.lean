import RecordGrammar.Proofs.Grammar.Meaning
import RecordGrammar.Proofs.Grammar.ReadBack
import RecordGrammar.Proofs.Grammar.SegmentForm

/-!
# What the text of a grammar means

Every rule that the compiler adds has a proper name and a proper body (`Compiles.proper`), so the text of a grammar is
read back as the grammar itself. With the meaning of that grammar: in the text of a shape's grammar, `root` stands
for just the texts of the shape (`derives_root_iff`).
-/

namespace RecordGrammar
open Reading

/-! ### Names -/

theorem isNameChar_of_isSafe {c : Char} (h : Segment.isSafe c = true) : isNameChar c = true := by
  simp only [isNameChar, Char.isAlphanum, Char.isAlpha, Bool.or_eq_true, decide_eq_true_eq, isLower_iff, isDigit_iff]
  rcases Segment.isSafe_iff.mp h with h | h | h
  · exact .inl (.inl (.inr h))
  · exact .inl (.inr h)
  · exact .inr h

/-- The second text is the first one with characters behind it that the name of a rule may have. -/
def Lengthens (p q : String) : Prop := ∃ s, q = p ++ s ∧ ∀ c ∈ s.toList, Segment.isSafe c = true

namespace Lengthens
variable {p q r : String}

theorem refl (p : String) : Lengthens p p := ⟨"", String.append_empty.symm, List.forall_mem_nil _⟩

theorem trans (h : Lengthens p q) (h' : Lengthens q r) : Lengthens p r := by
  obtain ⟨s, rfl, hs⟩ := h
  obtain ⟨s', rfl, hs'⟩ := h'
  refine ⟨s ++ s', String.append_assoc, ?_⟩
  rw [String.toList_append]
  exact List.forall_mem_append.mpr ⟨hs, hs'⟩

theorem append (p : String) {s : String} (h : s.toList.all Segment.isSafe = true) : Lengthens p (p ++ s) :=
  ⟨s, rfl, List.all_eq_true.mp h⟩

theorem item (p : String) : Lengthens p (itemName p) := append p (by decide)

theorem key (p : String) : Lengthens p (keyName p) := append p (by decide)

theorem field (t : RuleTable) (used : List String) (p name : String) : Lengthens p (fieldPath t used p name) := by
  have hsegment : (Segment.ofName name).toList.all Segment.isSafe = true := by
    rw [Segment.ofName, String.toList_ofList]
    exact List.all_eq_true.mpr fun c hc => Segment.isSafe_of_mem_chars hc
  have hnumber (n : Nat) : (toString n).toList.all Segment.isSafe = true := by
    refine List.all_eq_true.mpr fun c hc => ?_
    simp [Segment.isSafe, isDigit_iff.mp (isDigit_of_mem_toString hc)]
  have hbase : Lengthens p (p ++ "-" ++ Segment.ofName name) := (append p (by decide)).trans (append _ hsegment)
  obtain ⟨i, hi⟩ := freePath_eq t used (p ++ "-" ++ Segment.ofName name)
  rw [fieldPath, hi, pathCandidate]
  split
  · exact hbase
  · exact (hbase.trans (append _ (by decide))).trans (append _ (hnumber _))

end Lengthens

section
variable {settings : GrammarSettings} {path p n : String} {t t₁ : RuleTable}

theorem Reaches.lengthens {fields : List (Field Shape)} {used : List String} {i : Nat} {f : Field Shape}
    (h : Reaches settings fields path used t i f p t₁) : Lengthens path p := by
  induction h with
  | head => exact .field ..
  | tail _ _ _ ih => exact ih

theorem Visits.lengthens {s s₁ : Shape} {pos : Position} (h : Visits settings s path t pos s₁ p t₁) : Lengthens path p := by
  induction h with
  | here => exact .refl _
  | element _ _ ih => exact (Lengthens.item _).trans ih
  | field hfield _ ih => exact hfield.lengthens.trans ih

theorem Adds.lengthens {s : Shape} {pos : Position} (h : Adds settings s path t pos n) : Lengthens path n := by
  cases h with
  | string hv => exact hv.lengthens
  | element hv => exact hv.lengthens.trans (.item _)
  | key hv => exact hv.lengthens.trans (.key _)

end

namespace IsName
variable {p q : String}

theorem lengthen (hp : IsName p) (h : Lengthens p q) : IsName q := by
  obtain ⟨s, rfl, hs⟩ := h
  refine ⟨fun h => hp.1 ?_, ?_⟩
  · rw [String.toList_append] at h
    exact (List.append_eq_nil_iff.mp h).1
  · rw [String.toList_append]
    exact List.forall_mem_append.mpr ⟨hp.2, fun c hc => isNameChar_of_isSafe (hs c hc)⟩

theorem item (hp : IsName p) : IsName (itemName p) := hp.lengthen (.item p)

theorem key (hp : IsName p) : IsName (keyName p) := hp.lengthen (.key p)

theorem field (hp : IsName p) (t : RuleTable) (used : List String) (name : String) : IsName (fieldPath t used p name) :=
  hp.lengthen (.field ..)

end IsName

/-! ### Rows and alternatives -/

namespace Expr
variable {a b e : Expr}

theorem Readable.row_of_item (h : e.Readable .item) : e.Readable .row := by
  cases e with
  | empty => exact nofun
  | seq => exact absurd rfl h.1
  | alt => cases h.1
  | _ => exact h

theorem Readable.choice_of_row (h : e.Readable .row) : e.Readable .choice := by
  cases e with
  | empty => exact nofun
  | seq => exact ⟨nofun, h.2⟩
  | alt => cases h.1
  | _ => exact h

/-- An expression that stands for something in a row. -/
def InRow (e : Expr) : Prop := e.Readable .row ∧ e ≠ empty

theorem Readable.inRow (h : e.Readable .item) : e.InRow :=
  ⟨h.row_of_item, fun he => by subst he; exact h rfl⟩

theorem InRow.andThen (ha : a.InRow) (hb : b.InRow) : (andThen .spaced a b).InRow := by
  induction a with
  | empty => exact absurd rfl ha.2
  | seq gap x y _ ihy =>
    obtain ⟨-, hx, hy, hne, hgap⟩ := ha.1
    have hrest := ihy ⟨hy, hne⟩
    exact ⟨⟨nofun, hx, hrest.1, hrest.2, hgap⟩, nofun⟩
  | alt => cases ha.1.1
  | literal | cls | rule | group | repeated | raw => exact ⟨⟨nofun, ha.1, hb.1, hb.2, .inl rfl⟩, nofun⟩

theorem inRow_row {es : List Expr} (hne : es ≠ []) (h : ∀ e ∈ es, e.InRow) : (row .spaced es).InRow := by
  induction es with
  | nil => exact absurd rfl hne
  | cons e es ih =>
    have he := h e List.mem_cons_self
    cases es with
    | nil => exact he
    | cons e' es => exact he.andThen (ih (List.cons_ne_nil e' es) fun x hx => h x (List.mem_cons_of_mem e hx))

theorem readable_oneOf {gap : Gap} {es : List Expr} (h : ∀ e ∈ es, e.Readable .row) : (oneOf gap es).Readable .choice := by
  induction es with
  | nil => exact nofun
  | cons e es ih =>
    have he := h e List.mem_cons_self
    cases es with
    | nil => exact he.choice_of_row
    | cons e' es => exact ⟨rfl, he, ih fun x hx => h x (List.mem_cons_of_mem e hx)⟩

/-! ### Parts -/

section
variable {k : CharClass} {l : Place}

@[simp] theorem readable_literal (s : String) : (literal s).Readable l := trivial

@[simp] theorem readable_group : (group e).Readable l ↔ e.Readable .choice := Iff.rfl

@[simp] theorem readable_repeated {times : Times} : (repeated e times).Readable l ↔ e.Readable .item ∧ times.InOrder := Iff.rfl

@[simp] theorem readable_cls : (cls k).Readable l ↔ k.ReadsBack := Iff.rfl

theorem readable_rule {name : String} (h : IsName name) : (rule name).Readable l := h

@[simp] theorem readable_space : space.Readable l := readable_rule (by decide)

@[simp] theorem readable_char : (rule "char").Readable l := readable_rule (by decide)

@[simp] theorem space_ne_empty : space ≠ empty := nofun

theorem inRow_space : space.InRow := ⟨readable_space, space_ne_empty⟩

theorem inRow_word (s : String) : (word s).InRow := ⟨readable_literal s, nofun⟩

theorem readsBack_ofRanges (rs : List (Char × Char)) : (CharClass.ofRanges rs).ReadsBack := by
  refine CharClass.readsBack fun i hi => ?_
  obtain ⟨r, -, rfl⟩ := List.mem_map.mp hi
  exact ⟨.inl rfl, .inl rfl⟩

theorem readsBack_ofChars (cs : List Char) : (CharClass.ofChars cs).ReadsBack := by
  refine CharClass.readsBack fun i hi => ?_
  obtain ⟨c, -, rfl⟩ := List.mem_map.mp hi
  exact .inl rfl

theorem readsBack_noneOf (cs : List Char) : (CharClass.noneOf cs).ReadsBack := by
  refine CharClass.readsBack fun i hi => ?_
  obtain ⟨c, -, rfl⟩ := List.mem_map.mp hi
  exact .inl rfl

end

theorem readable_spaceBody : spaceBody.Readable .choice := by
  refine readable_oneOf ?_
  simp [word, amongst, readsBack_ofChars, Times.InOrder, Readable, row, andThen]

theorem readable_charBody (d : Delimiters) : (charBody d).Readable .choice := by
  have hplain : CharClass.ReadsBack { negated := true, items := [.one { char := '"' }, .one { char := '\\' },
      .one { char := '\x7f', spelling := .code },
      .range { char := '\x00', spelling := .code } { char := '\x1f', spelling := .code },
      .one { char := d.opening }, .one { char := d.closing }] } := by
    refine CharClass.readsBack ?_
    simp [ClassItem.IsPlain, ClassChar.IsPlain]
  refine readable_oneOf ?_
  simp [word, amongst, times, hplain, readsBack_ofChars, CharClass.hexDigit, readsBack_ofRanges, Times.InOrder, Readable,
    row, andThen, oneOf]

/-- The expression of a scalar is a row. -/
theorem inRow_scalar (kind : Scalar) : (scalarExpr kind).InRow := by
  cases kind <;> refine inRow_row (by simp) ?_ <;>
    simp [word, quote, amongst, span, maybe, digits, times, twoDigits, hourExpr, sixtyExpr, CharClass.digit, CharClass.hexDigit,
      readsBack_ofChars, readsBack_ofRanges, CharClass.readsBack_signs, Times.InOrder, Readable, InRow, row, andThen, oneOf]

theorem inRow_anyText (values : List String) : (anyText values).InRow := by
  have halts : (oneOf .tight (values.map jsonText)).Readable .choice := by
    refine readable_oneOf fun e he => ?_
    obtain ⟨v, -, rfl⟩ := List.mem_map.mp he
    exact trivial
  refine inRow_row (by simp) ?_
  simp [InRow, halts]

theorem inRow_boundedString {lo hi : Nat} (hle : lo ≤ hi) : (boundedStringExpr lo hi).InRow := by
  refine inRow_row (by simp) ?_
  simp [InRow, quote, Times.InOrder, hle]

theorem inRow_named (f : NamedFormat) : f.expr.InRow := by
  have hclass : f.charClass.ReadsBack := by
    refine CharClass.readsBack ?_
    cases f <;> simp [NamedFormat.charClass, CharClass.ofRanges, CharClass.digit, CharClass.hexDigit, ClassItem.IsPlain,
      ClassChar.IsPlain]
  refine inRow_row (by simp) ?_
  simp [InRow, quote, hclass, Times.InOrder]

theorem inRow_patternChar (c : Char) : (patternChar c).InRow := by
  rw [patternChar]
  unfold placeholder?
  split <;> simp [InRow, span, CharClass.digit, readsBack_ofRanges]

theorem inRow_pattern (s : String) : (patternExpr s).InRow := by
  refine inRow_row (by simp) fun e he => ?_
  simp only [List.cons_append, List.mem_cons, List.mem_append, List.mem_map, List.not_mem_nil, or_false] at he
  rcases he with rfl | ⟨c, -, rfl⟩ | rfl | rfl
  · exact ⟨trivial, nofun⟩
  · exact inRow_patternChar c
  · exact ⟨trivial, nofun⟩
  · exact ⟨readable_space, nofun⟩

theorem inRow_array {item : String} (h : IsName item) {lo hi : Nat} (hle : lo ≤ hi) : (arrayExpr item lo hi).InRow := by
  have hitem : (rule item).Readable .item := readable_rule h
  have hmore : (group (row .spaced [word ",", .space, rule item])).Readable .item := by
    refine (inRow_row (List.cons_ne_nil _ _) ?_).1.choice_of_row
    simp [InRow, word, hitem.row_of_item]
  have hrun : ∀ times : Times, times.InOrder →
      (repeated (group (row .spaced [word ",", .space, rule item])) times).Readable .item := fun _ ht => ⟨hmore, ht⟩
  have hpair : ∀ times : Times, times.InOrder →
      ∀ e ∈ [rule item, repeated (group (row .spaced [word ",", .space, rule item])) times], e.InRow := fun times ht => by
    simp only [List.forall_mem_cons, List.not_mem_nil, false_implies, implies_true, and_true]
    exact ⟨hitem.inRow, (hrun times ht).inRow⟩
  refine inRow_row (by simp) ?_
  simp only [List.forall_mem_append, List.forall_mem_cons, List.not_mem_nil, false_implies, implies_true, and_true]
  refine ⟨⟨⟨inRow_word "[", inRow_space⟩, ?_⟩, inRow_word "]", inRow_space⟩
  split_ifs with h₀ h₁ h₂ h₃ h₄
  · exact List.forall_mem_nil _
  · exact List.forall_mem_singleton.mpr (Readable.inRow ⟨hitem, trivial⟩)
  · have hcount : (Times.between 0 ((hi : Int) - 1)).InOrder := by
      rw [Times.InOrder]
      omega
    refine List.forall_mem_singleton.mpr (Readable.inRow ⟨?_, trivial⟩)
    exact (inRow_row (List.cons_ne_nil _ _) (hpair _ hcount)).1.choice_of_row
  · exact List.forall_mem_singleton.mpr hitem.inRow
  · exact hpair _ trivial
  · refine hpair _ ?_
    rw [Times.InOrder]
    omega

theorem inRow_object {keys : List String} (h : ∀ k ∈ keys, IsName k) : (objectExpr keys).InRow := by
  have hcomma : (row .spaced [word ",", .space]).InRow := by
    refine inRow_row (List.cons_ne_nil _ _) ?_
    simp [InRow, word]
  have hkeys : ∀ e ∈ (keys.map rule).intersperse (row .spaced [word ",", .space]), e.InRow := by
    induction keys with
    | nil => exact List.forall_mem_nil _
    | cons k keys ih =>
      have hk : (rule k).InRow := Readable.inRow (readable_rule (h k List.mem_cons_self))
      have hrest := ih fun k' hk' => h k' (List.mem_cons_of_mem k hk')
      cases keys with
      | nil => exact List.forall_mem_singleton.mpr hk
      | cons k' keys => exact List.forall_mem_cons.mpr ⟨hk, List.forall_mem_cons.mpr ⟨hcomma, hrest⟩⟩
  refine inRow_row (by simp) ?_
  simp only [List.forall_mem_append, List.forall_mem_cons, List.not_mem_nil, false_implies, implies_true, and_true]
  exact ⟨⟨⟨inRow_word "\x7b", inRow_space⟩, hkeys⟩, inRow_word "\x7d", inRow_space⟩

theorem inRow_field (name : String) {value : Expr} (h : value.InRow) : (fieldExpr name value).InRow := by
  refine inRow_row (by simp) ?_
  simp [InRow, word, jsonText, h.1, h.2]

/-! ### The thinking block -/

theorem readable_divergeFrom {tail : List Char} (h : tail ≠ []) : (divergeFrom tail).Readable .item := by
  induction tail with
  | nil => exact absurd rfl h
  | cons c tail ih =>
    cases tail with
    | nil => exact readsBack_noneOf [c, '<']
    | cons d tail =>
      have hrow : (row .spaced [literal (String.singleton c), divergeFrom (d :: tail)]).InRow :=
        inRow_row (List.cons_ne_nil _ _) (List.forall_mem_cons.mpr ⟨⟨trivial, nofun⟩,
          List.forall_mem_singleton.mpr (ih (List.cons_ne_nil d tail)).inRow⟩)
      refine readable_oneOf (List.forall_mem_cons.mpr ⟨?_, List.forall_mem_singleton.mpr hrow.1⟩)
      exact readsBack_noneOf [c, '<']

theorem readable_thinkingRules (m : EndMarker) (maxLength : Nat) :
    ∀ r ∈ thinkingRules m maxLength, IsName r.1 ∧ r.2.Readable .choice := by
  have hsafe : (safeLtExpr m).InRow :=
    inRow_row (List.cons_ne_nil _ _) (List.forall_mem_cons.mpr ⟨⟨trivial, nofun⟩,
      List.forall_mem_singleton.mpr (readable_divergeFrom m.tail_ne_nil).inRow⟩)
  have hname : IsName "think-safe-lt" ∧ IsName "think-char" ∧ IsName "think-content" :=
    by decide
  have hchar : (oneOf .spaced [cls (.noneOf ['<']), rule "think-safe-lt"]).Readable .choice :=
    readable_oneOf (List.forall_mem_cons.mpr ⟨readsBack_noneOf ['<'], List.forall_mem_singleton.mpr (readable_rule hname.1)⟩)
  have hcount : (Times.between 0 (maxLength : Int)).InOrder := Int.natCast_nonneg maxLength
  simp only [thinkingRules, List.forall_mem_cons, List.not_mem_nil, false_implies, implies_true, and_true]
  exact ⟨⟨hname.1, hsafe.1.choice_of_row⟩, ⟨hname.2.1, hchar⟩, hname.2.2, readable_rule hname.2.1, hcount⟩

theorem readable_thinkingEntry (start stop : String) : (thinkingEntry start stop).Readable .choice := by
  have hname : IsName "root" ∧ IsName "think-content" := by decide
  have hrow : (row .spaced [literal start, rule "think-content", literal stop, space, rule "root"]).InRow := by
    refine inRow_row (List.cons_ne_nil _ _) ?_
    simp only [List.forall_mem_cons, List.not_mem_nil, false_implies, implies_true, and_true]
    exact ⟨⟨trivial, nofun⟩, ⟨readable_rule hname.2, nofun⟩, ⟨trivial, nofun⟩, ⟨readable_space, nofun⟩,
      readable_rule hname.1, nofun⟩
  exact readable_oneOf (List.forall_mem_cons.mpr ⟨readable_rule hname.1, List.forall_mem_singleton.mpr hrow.1⟩)

end Expr

/-! ### Runs -/

namespace RuleTable.Proper
variable {t : RuleTable} {name : String} {body : Expr}

theorem push (h : t.Proper) (hn : IsName name) (hb : body.Readable .choice) : (t.push name body).Proper := fun r hr => by
  rcases List.mem_append.mp hr with hr | hr
  · exact h r hr
  · rw [List.mem_singleton.mp hr]
    exact ⟨hn, hb⟩

theorem ensure (h : t.Proper) (hn : IsName name) (hb : body.Readable .choice) : (t.ensure name body).Proper := by
  rw [RuleTable.ensure]
  split
  · exact h
  · exact h.push hn hb

end RuleTable.Proper

variable {settings : GrammarSettings}

theorem StringShape.RuleBody.inRow {text : StringShape} {body : Expr} (h : text.RuleBody settings body)
    (hraw : ∀ r, text.activeFormat? ≠ some (.raw r)) : body.InRow := by
  cases h with
  | values => exact Expr.inRow_anyText _
  | @format f _ ns hf hc =>
    cases f with
    | raw r => exact absurd hf (hraw r)
    | named f => cases hc; exact Expr.inRow_named f
    | pattern s => cases hc; exact Expr.inRow_pattern s
    | unknown s =>
      rw [StringFormat.compile] at hc
      split at hc
      · cases hc
      · cases hc; exact Expr.inRow_boundedString settings.lengths.min_le_max

theorem CompilesFields.isName_of_mem_keys : ∀ {fields : List (Field Shape)} {path : String} {used keys : List String}
    {t t' : RuleTable}, CompilesFields settings fields path used t keys t' → IsName path → ∀ k ∈ keys, IsName k
  | _, _, _, _, _, _, .nil, _ => List.forall_mem_nil _
  | _, _, _, _, _, _, .cons _ _ hrest, hpath =>
    List.forall_mem_cons.mpr ⟨(hpath.field _ _ _).key, hrest.isName_of_mem_keys hpath⟩

mutual

theorem Compiles.proper : ∀ {s : Shape} {path : String} {t t' : RuleTable} {e : Expr},
    Compiles settings s path t e t' → s.every Shape.hasNoRawFormat = true → IsName path → t.Proper → t'.Proper ∧ e.InRow
  | .string text, _, _, _, _, .namedString h, hraws, hpath, ht => by
    have hraw : ∀ r, text.activeFormat? ≠ some (.raw r) := fun r hr => by
      simp [Shape.every, Shape.hasNoRawFormat, hr] at hraws
    exact ⟨ht.ensure hpath (h.inRow hraw).1.choice_of_row, Expr.Readable.inRow (Expr.readable_rule hpath)⟩
  | _, _, _, _, _, .plainString _, _, _, ht => ⟨ht, Expr.inRow_boundedString (clampedLimits_le ..)⟩
  | .scalar kind _, _, _, _, _, .scalar, _, _, ht => ⟨ht, Expr.inRow_scalar kind⟩
  | _, _, _, _, _, .enum, _, _, ht => ⟨ht, Expr.inRow_anyText _⟩
  | _, _, _, _, _, .sharedArray _ _, _, hpath, ht => ⟨ht, Expr.inRow_array hpath.item (clampedLimits_le ..)⟩
  | _, _, _, _, _, .array _ helem _, hraws, hpath, ht => by
    obtain ⟨h₁, he⟩ := helem.proper (Shape.every_element hraws) hpath.item ht
    refine ⟨?_, Expr.inRow_array hpath.item (clampedLimits_le ..)⟩
    split
    · exact h₁
    · exact h₁.ensure hpath.item he.1.choice_of_row
  | _, _, _, _, _, .object h, hraws, hpath, ht =>
    ⟨h.proper (Shape.every_fields hraws) hpath ht, Expr.inRow_object (h.isName_of_mem_keys hpath)⟩

theorem CompilesFields.proper : ∀ {fields : List (Field Shape)} {path : String} {used keys : List String}
    {t t' : RuleTable}, CompilesFields settings fields path used t keys t' →
    Shape.everyField Shape.hasNoRawFormat fields = true → IsName path → t.Proper → t'.Proper
  | _, _, _, _, _, _, .nil, _, _, ht => ht
  | f :: _, path, used, _, t, _, .cons hvalue _ hrest, hraws, hpath, ht => by
    have hfield := hpath.field t used f.name
    obtain ⟨h₁, he⟩ := hvalue.proper (Shape.everyField_of_mem hraws f List.mem_cons_self) hfield ht
    exact hrest.proper (Shape.everyField_tail hraws) hpath (h₁.push hfield.key (Expr.inRow_field f.name he).1.choice_of_row)

end

/-! ### The whole grammar -/

theorem proper_seedTable (settings : GrammarSettings) : (seedTable settings).Proper := fun r hr => by
  have hname : IsName "char" ∧ IsName "space" := by decide
  simp only [seedTable, List.mem_append, List.mem_cons, List.not_mem_nil, or_false] at hr
  rcases hr with (rfl | rfl) | hr
  · exact ⟨hname.1, Expr.readable_charBody _⟩
  · exact ⟨hname.2, Expr.readable_spaceBody⟩
  · split at hr
    · exact Expr.readable_thinkingRules _ _ r hr
    · cases hr

theorem proper_finishTable {e : Expr} {t : RuleTable} (ht : t.Proper) (he : e.InRow) : (finishTable settings e t).Proper := by
  have hroot : (if e = .rule "root" then t else t.push "root" e).Proper := by
    split
    · exact ht
    · exact ht.push (by decide) he.1.choice_of_row
  rw [finishTable]
  split
  · exact hroot.push (by decide) (Expr.readable_thinkingEntry _ _)
  · exact hroot

/-- The rules of a grammar without raw formats are proper. -/
theorem proper_of_grammar {shape : Shape} {table : RuleTable} (h : (shape.grammar settings).1 = .ok table)
    (hraws : shape.every Shape.hasNoRawFormat = true) : table.rules ≠ [] ∧ table.Proper := by
  obtain ⟨e, t, hc, rfl⟩ := exists_compiles_of_grammar h
  obtain ⟨ht, he⟩ := hc.proper hraws (by decide) (proper_seedTable settings)
  refine ⟨fun hnil => ?_, proper_finishTable ht he⟩
  have hext : (seedTable settings).Extends (finishTable settings e t) := hc.table_extends.trans (finishTable_extends e t)
  have hchar := ((hasTokens_seedTable settings).extends hext).char
  rw [RuleTable.body?, hnil] at hchar
  cases hchar

/-- The text of a grammar without raw formats is read back as the grammar. -/
theorem readRules_grammar_of_noRawFormat {shape : Shape} {table : RuleTable} (h : (shape.grammar settings).1 = .ok table)
    (hraws : shape.every Shape.hasNoRawFormat = true) : readRules table.render = some table.canonical := by
  obtain ⟨hne, hproper⟩ := proper_of_grammar h hraws
  exact RuleTable.readRules_render hne hproper

theorem readRules_grammar {shape : Shape} {table : RuleTable} (h : (shape.grammar settings).1 = .ok table)
    (hread : shape.every Shape.isReadable = true) : readRules table.render = some table.canonical :=
  readRules_grammar_of_noRawFormat h (Shape.every_mono Shape.hasNoRawFormat_of_isReadable hread)

theorem derives_canonical_root {shape : Shape} {table : RuleTable} (h : (shape.grammar settings).1 = .ok table)
    (hfree : shape.every Shape.hasFreeSegments = true) (hread : shape.every Shape.isReadable = true) {w : List Char} :
    Expr.Derives table.canonical.body? (.rule "root") w ↔ w ∈ shape.texts settings := by
  rw [← texts_root h hfree hread, Expr.mem_texts]
  exact RuleTable.derives_canonical (e := .rule "root")

/-- A grammar as it is read from its text derives from `root` just the texts of the shape. -/
theorem derives_root_iff {shape : Shape} {table : RuleTable} (h : (shape.grammar settings).1 = .ok table)
    (hfree : shape.every Shape.hasFreeSegments = true) (hread : shape.every Shape.isReadable = true) :
    ∃ read, readRules table.render = some read ∧
      ∀ w, Expr.Derives read.body? (.rule "root") w ↔ w ∈ shape.texts settings :=
  ⟨table.canonical, readRules_grammar h hread, fun _ => derives_canonical_root h hfree hread⟩

theorem derives_root_iff_prices :
    ((Shape.object "Order" [{ name := "price", type := .scalar .decimal "decimal" }]).grammar {}).1 =
      .ok (finishTable {} (objectExpr ["root-price-kv"])
        ((seedTable {}).push "root-price-kv" (fieldExpr "price" decimalExpr))) ∧
    ∃ read, readRules (finishTable {} (objectExpr ["root-price-kv"])
        ((seedTable {}).push "root-price-kv" (fieldExpr "price" decimalExpr))).render = some read ∧
      ∀ w, Expr.Derives read.body? (.rule "root") w ↔
        w ∈ (Shape.object "Order" [{ name := "price", type := .scalar .decimal "decimal" }]).texts {} := by
  have h : ((Shape.object "Order" [{ name := "price", type := .scalar .decimal "decimal" }]).grammar {}).1 =
      .ok (finishTable {} (objectExpr ["root-price-kv"])
        ((seedTable {}).push "root-price-kv" (fieldExpr "price" decimalExpr))) := by
    rfl
  exact ⟨h, derives_root_iff h (by decide) (by decide)⟩

end RecordGrammar
