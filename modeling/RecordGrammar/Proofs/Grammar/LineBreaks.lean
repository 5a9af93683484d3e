import RecordGrammar.Proofs.Grammar.FirstRules
import RecordGrammar.Text.Line

/-!
# Line breaks in rules

No rule holds a line feed, but a line may be broken by other characters as well, and the escapes leave some of these as they
are: a literal keeps all but line feeds and carriage returns, a class all but line feeds, and a JSON string those that are no
control characters of ASCII. `hasBreak_iff`: a grammar without raw formats holds a line break just if a delimiter, a
marker, or a text of a shape that the compiler comes to has one that is kept where it stands.
-/

namespace RecordGrammar
open Reading Text

/-! ### What escapes leave -/

theorem isLineBreak_iff {c : Char} : isLineBreak c = true ↔
    0x0A ≤ c.toNat ∧ c.toNat ≤ 0x0D ∨ 0x1C ≤ c.toNat ∧ c.toNat ≤ 0x1E ∨ c.toNat = 0x85 ∨ 0x2028 ≤ c.toNat ∧ c.toNat ≤ 0x2029 := by
  rw [isLineBreak, inRanges_eq_true_iff]
  simp only [lineBreakRanges, List.mem_cons, List.not_mem_nil, or_false, exists_eq_or_imp, exists_eq_left]
  omega

theorem isLineBreak_of_printable {c : Char} (hlo : 0x20 ≤ c.toNat) (hhi : c.toNat < 0x7f) : isLineBreak c = false := by
  rw [← Bool.not_eq_true, isLineBreak_iff]
  omega

theorem isLineBreak_of_isNameChar {c : Char} (h : isNameChar c = true) : isLineBreak c = false := by
  simp only [isNameChar, Char.isAlphanum, Char.isAlpha, Bool.or_eq_true, decide_eq_true_eq, isUpper_iff, isLower_iff,
    isDigit_iff, char_le_iff, char_eq_iff, Char.reduceToNat] at h
  exact isLineBreak_of_printable (by omega) (by omega)

/-- Whether a class with the character holds a line break. -/
def breaksClass (c : Char) : Bool := isLineBreak c && c ≠ '\n'

/-- Whether a literal of the text holds a line break. -/
def breaksLiteral (s : List Char) : Bool := s.any fun c => isLineBreak c && c ≠ '\n' && c ≠ '\r'

/-- Whether a literal of the JSON string of the text holds a line break. -/
def breaksJsonText (s : String) : Bool := s.toList.any fun c => isLineBreak c && 0x20 ≤ c.toNat

theorem any_escapeInClass (c : Char) : (escapeInClass c).any isLineBreak = breaksClass c := by
  simp only [escapeInClass, Bool.or_eq_true, decide_eq_true_eq]
  split_ifs with hmark hbreak htab
  · rcases hmark with ((rfl | rfl) | rfl) | rfl <;> decide
  · subst hbreak; decide
  · subst htab; decide
  · simp [breaksClass, hbreak]

theorem any_literalText (s : List Char) : (literalText s).any isLineBreak = breaksLiteral s := by
  rw [Bool.eq_iff_iff, List.any_eq_true, breaksLiteral, List.any_eq_true]
  have hother {c : Char} (hc : isLineBreak c = true) : c ∉ ['"', '\\', 'n', 'r', 't'] := by
    intro hmem
    revert hc
    simp only [List.mem_cons, List.not_mem_nil, or_false] at hmem
    rcases hmem with rfl | rfl | rfl | rfl | rfl <;> decide
  constructor
  · rintro ⟨c, hmem, hc⟩
    obtain ⟨hs, hne⟩ := (mem_literalText_iff (hother hc)).mp hmem
    exact ⟨c, hs, by simp_all⟩
  · rintro ⟨c, hmem, hc⟩
    simp only [Bool.and_eq_true, decide_eq_true_eq] at hc
    refine ⟨c, (mem_literalText_iff (hother hc.1.1)).mpr ⟨hmem, ?_⟩, hc.1.1⟩
    have htab : c ≠ '\t' := by
      rintro rfl
      exact absurd hc.1.1 (by decide)
    simp [hc, htab]

theorem breaksLiteral_append (s t : List Char) : breaksLiteral (s ++ t) = (breaksLiteral s || breaksLiteral t) := List.any_append

/-- A JSON string keeps the line breaks that are no control characters, and has no others. -/
theorem breaksLiteral_literal (s : String) : breaksLiteral (Json.literal s).toList = breaksJsonText s := by
  have hchar (c : Char) : breaksLiteral (Json.literalChar c) = (isLineBreak c && 0x20 ≤ c.toNat) := by
    rw [Json.literalChar]
    split
    · next l hl =>
      unfold Json.escapeLetter? at hl
      split at hl <;> cases hl <;> rfl
    · split
      · next hc =>
        have hescape : ∀ n < 0x20, breaksLiteral (Json.unitEscape n) = false := by decide
        rw [hescape _ hc, decide_eq_false (by omega), Bool.and_false]
      · next hc =>
        have hne : c ≠ '\n' ∧ c ≠ '\r' := by
          constructor <;> rintro rfl <;> exact hc (by decide)
        simp [breaksLiteral, hne, Nat.le_of_not_lt hc]
  have hall (cs : List Char) : breaksLiteral (cs.flatMap Json.literalChar) = cs.any fun c => isLineBreak c && 0x20 ≤ c.toNat := by
    induction cs with
    | nil => rfl
    | cons c cs ih => rw [List.flatMap_cons, breaksLiteral_append, hchar, ih, List.any_cons]
  rw [Json.literal, String.toList_ofList, Json.literalChars, List.cons_append, ← List.singleton_append, breaksLiteral_append,
    breaksLiteral_append, hall]
  show (false || ((s.toList.any fun c => isLineBreak c && 0x20 ≤ c.toNat) || false)) = breaksJsonText s
  rw [Bool.false_or, Bool.or_false, breaksJsonText]

/-! ### Expressions -/

namespace Expr
variable {gap : Gap} {a b : Expr}

/-- Whether the text of the expression holds a line break. -/
def hasBreak (e : Expr) : Bool := e.chars.any isLineBreak

@[simp] theorem hasBreak_literal (s : String) : (literal s).hasBreak = breaksLiteral s.toList := any_literalText s.toList

@[simp] theorem hasBreak_jsonText (s : String) : (jsonText s).hasBreak = breaksJsonText s := by
  rw [jsonText, hasBreak_literal, breaksLiteral_literal]

theorem hasBreak_rule {name : String} (h : IsName name) : (rule name).hasBreak = false := by
  rw [hasBreak, chars, List.any_eq_false]
  intro c hc
  rw [isLineBreak_of_isNameChar (h.2 c hc)]
  decide

@[simp] theorem hasBreak_seq : (seq gap a b).hasBreak = (a.hasBreak || b.hasBreak) := by
  have hmark : (seqMark gap).any isLineBreak = false := by cases gap <;> decide
  simp [hasBreak, chars, hmark]

@[simp] theorem hasBreak_alt : (alt gap a b).hasBreak = (a.hasBreak || b.hasBreak) := by
  have hmark : (altMark gap a).any isLineBreak = false := by
    unfold altMark
    split <;> decide
  simp [hasBreak, chars, hmark]

@[simp] theorem hasBreak_group (e : Expr) : (group e).hasBreak = e.hasBreak := by
  have hmark : isLineBreak '(' = false ∧ isLineBreak ')' = false := by decide
  simp [hasBreak, chars, hmark]

theorem any_toString (n : Nat) : (toString n).toList.any isLineBreak = false := by
  rw [List.any_eq_false]
  intro c hc
  have hname : isNameChar c = true := by simp [isNameChar, Char.isAlphanum, isDigit_of_mem_toString hc]
  rw [isLineBreak_of_isNameChar hname]
  decide

theorem hasBreak_repeated {e : Expr} {times : Times} (h : times.InOrder) : (repeated e times).hasBreak = e.hasBreak := by
  have hmark : isLineBreak '\x7b' = false ∧ isLineBreak ',' = false ∧ isLineBreak '\x7d' = false := by decide
  have htimes : times.chars.any isLineBreak = false := by
    cases times with
    | optional => decide
    | some => decide
    | exactly n =>
      simp only [Times.chars, List.cons_append, List.any_cons, List.any_append, any_toString, hmark, List.any_nil, Bool.or_false]
    | between m n =>
      obtain ⟨n, rfl⟩ := Int.eq_ofNat_of_zero_le ((Int.natCast_nonneg m).trans h)
      have hn : toString (n : Int) = toString n := rfl
      simp only [Times.chars, hn, List.cons_append, List.append_assoc, List.any_cons, List.any_append, any_toString, hmark,
        List.any_nil, Bool.or_false]
  rw [hasBreak, chars, List.any_append, htimes, Bool.or_false, hasBreak]

@[simp] theorem hasBreak_andThen : (andThen gap a b).hasBreak = (a.hasBreak || b.hasBreak) := by
  induction a with
  | seq _ x y _ ihy => rw [andThen, hasBreak_seq, ihy, hasBreak_seq, Bool.or_assoc]
  | empty | literal | cls | rule | alt | group | repeated | raw => exact hasBreak_seq

@[simp] theorem hasBreak_row (gap : Gap) (es : List Expr) : (row gap es).hasBreak = es.any hasBreak := by
  fun_induction row gap es with
  | case1 => rfl
  | case2 e => simp
  | case3 e es _ ih => rw [hasBreak_andThen, ih, List.any_cons]

@[simp] theorem hasBreak_oneOf (gap : Gap) (es : List Expr) : (oneOf gap es).hasBreak = es.any hasBreak := by
  fun_induction oneOf gap es with
  | case1 => rfl
  | case2 e => simp
  | case3 e es _ ih => rw [hasBreak_alt, ih, List.any_cons]

@[simp] theorem hasBreak_space : space.hasBreak = false := by decide

theorem hasBreak_noneOf (c : Char) : (cls (.noneOf [c, '<'])).hasBreak = breaksClass c := by
  have hmark : isLineBreak '[' = false ∧ isLineBreak '^' = false ∧ isLineBreak ']' = false := by decide
  have hlt : breaksClass '<' = false := by decide
  simp [hasBreak, chars, CharClass.chars, CharClass.noneOf, ClassItem.chars, ClassChar.chars, any_escapeInClass, hmark, hlt]

theorem hasBreak_charBody (d : Delimiters) : (charBody d).hasBreak = (breaksClass d.opening || breaksClass d.closing) := by
  have hplain : (cls { negated := true, items := [.one { char := '"' }, .one { char := '\\' },
      .one { char := '\x7f', spelling := .code }, .range { char := '\x00', spelling := .code } { char := '\x1f', spelling := .code },
      .one { char := d.opening }, .one { char := d.closing }] }).hasBreak = (breaksClass d.opening || breaksClass d.closing) := by
    have hfront : (ClassItem.one { char := '"' }).chars.any isLineBreak = false ∧
        (ClassItem.one { char := '\\' }).chars.any isLineBreak = false ∧
        (ClassItem.one { char := '\x7f', spelling := .code }).chars.any isLineBreak = false ∧
        (ClassItem.range { char := '\x00', spelling := .code } { char := '\x1f', spelling := .code }).chars.any isLineBreak =
          false ∧ isLineBreak '[' = false ∧ isLineBreak '^' = false ∧ isLineBreak ']' = false := by decide
    have hone (c : Char) : (ClassItem.one { char := c }).chars.any isLineBreak = breaksClass c := any_escapeInClass c
    simp [hasBreak, chars, CharClass.chars, List.any_append, hfront, hone]
  have hrest : (row .spaced [amongst "\\", group (oneOf .spaced [amongst "\"\\bfnrt",
      row .spaced [word "u", times .hexDigit 4]])]).hasBreak = false := by decide
  rw [charBody, hasBreak_oneOf]
  simp [hplain, hrest]

theorem hasBreak_divergeFrom (tail : List Char) : (divergeFrom tail).hasBreak = tail.any breaksClass := by
  have hliteral (c : Char) : (breaksClass c || breaksLiteral [c]) = breaksClass c := by
    simp only [breaksLiteral, breaksClass, List.any_cons, List.any_nil, Bool.or_false]
    cases isLineBreak c <;> simp +contextual
  fun_induction divergeFrom tail with
  | case1 => rfl
  | case2 c => simp [leaveMarker, hasBreak_noneOf]
  | case3 c tail _ ih =>
    simp only [hasBreak_group, hasBreak_oneOf, hasBreak_row, List.any_cons, List.any_nil, Bool.or_false, leaveMarker,
      hasBreak_noneOf, hasBreak_literal, String.toList_singleton, ih, ← Bool.or_assoc, hliteral]

theorem hasBreak_scalar (kind : Scalar) : (scalarExpr kind).hasBreak = false := by
  cases kind <;> decide

theorem hasBreak_named (f : NamedFormat) : f.expr.hasBreak = false := by
  cases f <;> decide

theorem hasBreak_anyText (values : List String) : (anyText values).hasBreak = values.any breaksJsonText := by
  have hvalues : (values.map jsonText).any hasBreak = values.any breaksJsonText := by
    induction values with
    | nil => rfl
    | cons v values ih => rw [List.map_cons, List.any_cons, hasBreak_jsonText, ih, List.any_cons]
  rw [anyText, hasBreak_row, List.any_cons, hasBreak_group, hasBreak_oneOf, hvalues]
  simp

theorem hasBreak_boundedString {lo hi : Nat} (hle : lo ≤ hi) : (boundedStringExpr lo hi).hasBreak = false := by
  have hchars : (repeated (rule "char") (.between lo hi)).hasBreak = false := by
    rw [hasBreak_repeated (show (Times.between lo hi).InOrder from Int.ofNat_le.mpr hle)]
    decide
  have hquote : quote.hasBreak = false := by decide
  simp [boundedStringExpr, hchars, hquote]

theorem hasBreak_patternChar (c : Char) : (patternChar c).hasBreak = breaksLiteral [c] := by
  rw [patternChar]
  unfold placeholder?
  split
  case h_7 => rw [Option.getD_none, hasBreak_literal, String.toList_singleton]
  all_goals decide

theorem hasBreak_pattern (s : String) : (patternExpr s).hasBreak = breaksLiteral s.toList := by
  have hquote : quote.hasBreak = false := by decide
  have hchars : s.toList.any (fun c => (patternChar c).hasBreak) = breaksLiteral s.toList := by
    simp only [hasBreak_patternChar, breaksLiteral, List.any_cons, List.any_nil, Bool.or_false]
  simp only [patternExpr, hasBreak_row, List.any_append, List.any_cons, List.any_nil, Bool.or_false, hquote, Bool.false_or,
    List.any_map, hasBreak_space]
  exact hchars

theorem hasBreak_field (name : String) (value : Expr) :
    (fieldExpr name value).hasBreak = (breaksJsonText name || value.hasBreak) := by
  have hcolon : (word ":").hasBreak = false := by decide
  simp [fieldExpr, hcolon]

theorem hasBreak_array {item : String} (h : IsName item) {lo hi : Nat} (hle : lo ≤ hi) :
    (arrayExpr item lo hi).hasBreak = false := by
  have hitem := hasBreak_rule h
  have hword : (word "[").hasBreak = false ∧ (word ",").hasBreak = false ∧ (word "]").hasBreak = false := by decide
  have hmaybe : Times.InOrder .optional := trivial
  have hmore {times : Times} (ht : times.InOrder) :
      (repeated (group (row .spaced [word ",", .space, rule item])) times).hasBreak = false := by
    rw [hasBreak_repeated ht]
    simp [hword, hitem]
  simp only [arrayExpr, hasBreak_row, List.any_append, List.any_cons, List.any_nil, Bool.or_false, hword, hasBreak_space]
  split_ifs with hmax hmin hone heq hone'
  · rfl
  · simp [maybe, hasBreak_repeated hmaybe, hitem]
  · have hcount : (Times.between 0 ((hi : Int) - 1)).InOrder := by
      rw [Times.InOrder]
      omega
    simp [maybe, hasBreak_repeated hmaybe, hitem, hmore hcount]
  · simp [hitem]
  · have hcount : (Times.exactly (hi - 1)).InOrder := trivial
    simp [hitem, hmore hcount]
  · have hcount : (Times.between (lo - 1) ((hi : Int) - 1)).InOrder := by
      rw [Times.InOrder]
      omega
    simp [hitem, hmore hcount]

theorem hasBreak_object {keys : List String} (h : ∀ k ∈ keys, IsName k) : (objectExpr keys).hasBreak = false := by
  have hword : (word "\x7b").hasBreak = false ∧ (word "\x7d").hasBreak = false := by decide
  have hcomma : (row .spaced [word ",", .space]).hasBreak = false := by decide
  have hkeys : ((keys.map rule).intersperse (row .spaced [word ",", .space])).any hasBreak = false := by
    induction keys with
    | nil => rfl
    | cons k keys ih =>
      obtain ⟨hk, hrest⟩ := List.forall_mem_cons.mp h
      cases keys with
      | nil => simp [hasBreak_rule hk]
      | cons k' keys =>
        have := ih hrest
        simp only [List.map_cons, List.intersperse_cons_cons, List.any_cons] at this ⊢
        rw [hasBreak_rule hk, hcomma, this]
        rfl
  simp [objectExpr, hword, hkeys]

end Expr

/-! ### Texts of the user -/

/-- Whether the rule of the string holds a line break: one of a value, or one of a pattern. -/
def StringShape.breaksLine (text : StringShape) : Bool :=
  if text.allowed ≠ [] then text.allowed.any breaksJsonText
  else match text.activeFormat? with
    | some (.pattern s) => breaksLiteral s.toList
    | _ => false

/-- Whether the texts of the shape itself, those of its parts apart, bring a line break into a grammar. -/
def Shape.breaksLine : Shape → Bool
  | .string text => text.breaksLine
  | .enum _ values => values.any breaksJsonText
  | .object _ fields => fields.any (breaksJsonText ·.name)
  | .scalar .. | .array .. | .custom _ => false

/-- Whether the delimiters and the markers bring a line break into a grammar. -/
def GrammarSettings.breaksLine (settings : GrammarSettings) : Bool :=
  (breaksClass settings.delimiters.opening || breaksClass settings.delimiters.closing) ||
    settings.includeThinking && (settings.thinkingEnd.tail.any breaksClass || breaksLiteral settings.thinkingStart.toList)

variable {settings : GrammarSettings}

theorem StringShape.RuleBody.hasBreak {text : StringShape} {body : Expr} (h : text.RuleBody settings body)
    (hraw : ∀ r, text.activeFormat? ≠ some (.raw r)) : body.hasBreak = text.breaksLine := by
  cases h with
  | values hvalues => rw [Expr.hasBreak_anyText, breaksLine, if_pos hvalues]
  | @format f _ ns hf hc =>
    have hvalues : text.allowed = [] := by
      by_contra hne
      rw [activeFormat?, if_pos hne] at hf
      cases hf
    rw [breaksLine, if_neg (not_not.mpr hvalues), hf]
    cases f with
    | raw r => exact absurd hf (hraw r)
    | named f => cases hc; exact Expr.hasBreak_named f
    | pattern s => cases hc; exact Expr.hasBreak_pattern s
    | unknown s =>
      rw [StringFormat.compile] at hc
      split at hc
      · cases hc
      · cases hc; exact Expr.hasBreak_boundedString settings.lengths.min_le_max

theorem StringShape.Plain.breaksLine {text : StringShape} (h : text.Plain) : text.breaksLine = false := by
  rw [StringShape.breaksLine, if_neg (not_not.mpr h.1), h.2]

/-! ### Runs -/

/-- Whether a rule of the table holds a line break. -/
def RuleTable.HasBreak (t : RuleTable) : Prop := ∃ r ∈ t.rules, r.2.hasBreak = true

theorem RuleTable.hasBreak_push {t : RuleTable} {name : String} {body : Expr} :
    (t.push name body).HasBreak ↔ t.HasBreak ∨ body.hasBreak = true := by
  simp [HasBreak, push, or_and_right, exists_or]

/-- The run comes to a shape that brings a line break into the grammar. -/
def BreaksIn (settings : GrammarSettings) (s : Shape) (path : String) (t : RuleTable) : Prop :=
  ∃ pos s₁ p t₁, Visits settings s path t pos s₁ p t₁ ∧ s₁.breaksLine = true

/-- The run over fields comes to one that brings a line break into the grammar. -/
def BreaksInFields (settings : GrammarSettings) (fields : List (Field Shape)) (path : String) (used : List String)
    (t : RuleTable) : Prop :=
  ∃ i f p t₁, Reaches settings fields path used t i f p t₁ ∧ (breaksJsonText f.name = true ∨ BreaksIn settings f.type p t₁)

section
variable {s : Shape} {path name : String} {used : List String} {t u : RuleTable} {fields rest : List (Field Shape)}
  {f : Field Shape} {v : Expr}

theorem breaksIn_string {text : StringShape} : BreaksIn settings (.string text) path t ↔ text.breaksLine = true := by
  constructor
  · rintro ⟨pos, s₁, p, t₁, hv, h⟩
    cases hv
    exact h
  · exact fun h => ⟨_, _, _, _, .here, h⟩

theorem breaksIn_enum {values : List String} :
    BreaksIn settings (.enum name values) path t ↔ values.any breaksJsonText = true := by
  constructor
  · rintro ⟨pos, s₁, p, t₁, hv, h⟩
    cases hv
    exact h
  · exact fun h => ⟨_, _, _, _, .here, h⟩

theorem not_breaksIn_scalar {kind : Scalar} : ¬ BreaksIn settings (.scalar kind name) path t := by
  rintro ⟨pos, s₁, p, t₁, hv, h⟩
  cases hv
  cases h

/-- The elements count if the run compiles them. -/
theorem breaksIn_array {element : Shape} {lo hi : Option Nat} : BreaksIn settings (.array element lo hi name) path t ↔
    t.contains (itemName path) = false ∧ BreaksIn settings element (itemName path) t := by
  constructor
  · rintro ⟨pos, s₁, p, t₁, hv, h⟩
    cases hv with
    | here => cases h
    | element hnew hv => exact ⟨hnew, _, _, _, _, hv, h⟩
  · rintro ⟨hnew, pos, s₁, p, t₁, hv, h⟩
    exact ⟨_, _, _, _, .element hnew hv, h⟩

theorem breaksInFields_cons (hvalue : Compiles settings f.type (fieldPath t used path f.name) t v u)
    (hkey : u.contains (keyName (fieldPath t used path f.name)) = false) :
    BreaksInFields settings (f :: rest) path used t ↔
      (breaksJsonText f.name = true ∨ BreaksIn settings f.type (fieldPath t used path f.name) t) ∨
      BreaksInFields settings rest path (fieldPath t used path f.name :: used)
        (u.push (keyName (fieldPath t used path f.name)) (fieldExpr f.name v)) := by
  constructor
  · rintro ⟨i, g, p, t₁, hreach, h⟩
    cases hreach with
    | head => exact .inl h
    | tail hvalue' _ hreach =>
      obtain ⟨rfl, rfl⟩ := hvalue.det hvalue'
      exact .inr ⟨_, _, _, _, hreach, h⟩
  · rintro (h | ⟨i, g, p, t₁, hreach, h⟩)
    · exact ⟨_, _, _, _, .head, h⟩
    · exact ⟨_, _, _, _, .tail hvalue hkey hreach, h⟩

/-- In a run that ends with a result all fields are reached. -/
theorem breaksIn_object {keys : List String} {t' : RuleTable} (h : CompilesFields settings fields path [] t keys t') :
    BreaksIn settings (.object name fields) path t ↔ BreaksInFields settings fields path [] t := by
  constructor
  · rintro ⟨pos, s₁, p, t₁, hv, hbreak⟩
    cases hv with
    | here =>
      obtain ⟨f, hf, hname⟩ := List.any_eq_true.mp hbreak
      obtain ⟨i, hi⟩ := List.getElem?_of_mem hf
      obtain ⟨p, t₁, hreach⟩ := h.exists_reaches hi
      exact ⟨i, f, p, t₁, hreach, .inl hname⟩
    | field hreach hv => exact ⟨_, _, _, _, hreach, .inr ⟨_, _, _, _, hv, hbreak⟩⟩
  · rintro ⟨i, f, p, t₁, hreach, hname | ⟨pos, s₁, q, t₂, hv, hbreak⟩⟩
    · exact ⟨_, _, _, _, .here, List.any_eq_true.mpr ⟨f, hreach.mem, hname⟩⟩
    · exact ⟨_, _, _, _, .field hreach hv, hbreak⟩

end

mutual

/-- The line breaks in the rules that a run adds, and in what it gives, are those of the shapes it comes to. -/
theorem Compiles.hasBreak_iff : ∀ {s : Shape} {path : String} {t t' : RuleTable} {e : Expr},
    Compiles settings s path t e t' → s.every Shape.hasNoRawFormat = true → IsName path → path ∉ t.names →
    (t'.HasBreak ∨ e.hasBreak = true ↔ t.HasBreak ∨ BreaksIn settings s path t)
  | .string text, _, _, _, _, .namedString h, hraws, hpath, hnew => by
    have hraw : ∀ r, text.activeFormat? ≠ some (.raw r) := fun r hr => by
      simp [Shape.every, Shape.hasNoRawFormat, hr] at hraws
    rw [RuleTable.ensure_of_not_mem hnew, RuleTable.hasBreak_push, h.hasBreak hraw, Expr.hasBreak_rule hpath, breaksIn_string]
    simp
  | _, _, _, _, _, .plainString h, _, _, _ => by
    rw [Expr.hasBreak_boundedString (clampedLimits_le ..), breaksIn_string, h.breaksLine]
  | .scalar kind _, _, _, _, _, .scalar, _, _, _ => by
    simp [Expr.hasBreak_scalar, not_breaksIn_scalar]
  | _, _, _, _, _, .enum, _, _, _ => by
    rw [Expr.hasBreak_anyText, breaksIn_enum]
  | _, _, _, _, _, .sharedArray hold _, _, hpath, _ => by
    rw [Expr.hasBreak_array hpath.item (clampedLimits_le ..), breaksIn_array, hold]
    simp
  | .array element _ _ _, path, t, _, _, .array (u := u) (v := v) hnew helem _, hraws, hpath, _ => by
    have hitem := RuleTable.contains_eq_false_iff.mp hnew
    have ih := helem.hasBreak_iff (Shape.every_element hraws) hpath.item hitem
    -- the rule of the elements holds what they gave, unless this is the name of that rule already
    have hrules : (if v = .rule (itemName path) then u else u.ensure (itemName path) v).HasBreak ↔
        u.HasBreak ∨ v.hasBreak = true := by
      split
      · next hv => simp [hv, Expr.hasBreak_rule hpath.item]
      · next hv => rw [RuleTable.ensure_of_not_mem (helem.path_not_mem_names hitem hv), RuleTable.hasBreak_push]
    rw [Expr.hasBreak_array hpath.item (clampedLimits_le ..), breaksIn_array, hrules, ih]
    simp [hnew]
  | _, _, _, _, _, .object h, hraws, hpath, _ => by
    rw [breaksIn_object h, ← h.hasBreak_iff (Shape.every_fields hraws) hpath,
      Expr.hasBreak_object (h.isName_of_mem_keys hpath)]
    simp

theorem CompilesFields.hasBreak_iff : ∀ {fields : List (Field Shape)} {path : String} {used keys : List String}
    {t t' : RuleTable}, CompilesFields settings fields path used t keys t' →
    Shape.everyField Shape.hasNoRawFormat fields = true → IsName path →
    (t'.HasBreak ↔ t.HasBreak ∨ BreaksInFields settings fields path used t)
  | _, _, _, _, _, _, .nil, _, _ => by
    refine (or_iff_left ?_).symm
    rintro ⟨i, f, p, t₁, hreach, -⟩
    cases hreach
  | f :: _, path, used, _, t, _, .cons hvalue hkey hrest, hraws, hpath => by
    have ih := hvalue.hasBreak_iff (Shape.everyField_of_mem hraws f List.mem_cons_self) (hpath.field t used f.name)
      (fieldPath_not_mem_names _ _ _ _)
    rw [hrest.hasBreak_iff (Shape.everyField_tail hraws) hpath, RuleTable.hasBreak_push, Expr.hasBreak_field,
      breaksInFields_cons hvalue hkey, Bool.or_eq_true, or_left_comm, ih, or_left_comm, or_assoc]

end

/-! ### Whole grammars -/

/-- A break that a literal keeps is kept by a class as well. -/
theorem any_breaksClass_of_breaksLiteral {s : List Char} (h : breaksLiteral s = true) : s.any breaksClass = true := by
  obtain ⟨c, hmem, hc⟩ := List.any_eq_true.mp h
  refine List.any_eq_true.mpr ⟨c, hmem, ?_⟩
  rw [Bool.and_eq_true] at hc
  exact hc.1

theorem hasBreak_thinkingRules (m : EndMarker) (maxLength : Nat) :
    (⟨thinkingRules m maxLength⟩ : RuleTable).HasBreak ↔ m.tail.any breaksClass = true := by
  have hlt : (Expr.word "<").hasBreak = false := by decide
  have hchar : (Expr.oneOf .spaced [.cls (.noneOf ['<']), .rule "think-safe-lt"]).hasBreak = false := by decide
  have hcontent : (Expr.repeated (.rule "think-char") (.between 0 maxLength)).hasBreak = false := by
    rw [Expr.hasBreak_repeated (show (Times.between 0 maxLength).InOrder from Int.natCast_nonneg maxLength)]
    decide
  simp only [RuleTable.HasBreak, thinkingRules, List.mem_cons, List.not_mem_nil, or_false, exists_eq_or_imp, exists_eq_left,
    hchar, hcontent, safeLtExpr, Expr.hasBreak_row, List.any_cons, List.any_nil, hlt, Expr.hasBreak_divergeFrom,
    Bool.false_or, Bool.or_false, Bool.false_eq_true]

theorem hasBreak_seedTable : (seedTable settings).HasBreak ↔
    (breaksClass settings.delimiters.opening || breaksClass settings.delimiters.closing) = true ∨
      settings.includeThinking = true ∧ settings.thinkingEnd.tail.any breaksClass = true := by
  have hspace : spaceBody.hasBreak = false := by decide
  rw [← Expr.hasBreak_charBody, ← hasBreak_thinkingRules settings.thinkingEnd settings.maxThinkingLength]
  simp only [RuleTable.HasBreak, seedTable, List.mem_append, List.mem_cons, List.not_mem_nil, or_false, or_and_right, exists_or,
    exists_eq_left, hspace, Bool.false_eq_true]
  refine or_congr_right ?_
  split
  · next hthinking => simp [hthinking]
  · next hthinking => simp [hthinking]

theorem hasBreak_finishTable {e : Expr} {t : RuleTable} : (finishTable settings e t).HasBreak ↔
    (t.HasBreak ∨ e.hasBreak = true) ∨ settings.includeThinking = true ∧
      (breaksLiteral settings.thinkingStart.toList || breaksLiteral ('<' :: settings.thinkingEnd.tail)) = true := by
  have hroot : (if e = .rule "root" then t else t.push "root" e).HasBreak ↔ t.HasBreak ∨ e.hasBreak = true := by
    split
    · next he => simp [he, Expr.hasBreak_rule (show IsName "root" by decide)]
    · exact RuleTable.hasBreak_push
  have hentry : (thinkingEntry settings.thinkingStart settings.thinkingEnd.text).hasBreak =
      (breaksLiteral settings.thinkingStart.toList || breaksLiteral ('<' :: settings.thinkingEnd.tail)) := by
    have hname : (Expr.rule "root").hasBreak = false ∧ (Expr.rule "think-content").hasBreak = false := by decide
    simp [thinkingEntry, hname, EndMarker.text]
  rw [finishTable]
  split
  · next hthinking => rw [RuleTable.hasBreak_push, hroot, hentry, hthinking, eq_self, true_and]
  · next hthinking => rw [hroot, eq_false hthinking, false_and, or_false]

/-- A grammar holds a line break just if the settings bring one in or a shape that the compiler comes to. -/
theorem hasBreak_iff {shape : Shape} {table : RuleTable} (h : (shape.grammar settings).1 = .ok table)
    (hraws : shape.every Shape.hasNoRawFormat = true) :
    table.HasBreak ↔ settings.breaksLine = true ∨ BreaksIn settings shape "root" (seedTable settings) := by
  obtain ⟨e, t, hc, rfl⟩ := exists_compiles_of_grammar h
  -- the end marker stands in the entry as a literal, but its characters in classes as well, which keep more breaks
  have hlt : breaksLiteral ('<' :: settings.thinkingEnd.tail) = true → settings.thinkingEnd.tail.any breaksClass = true := by
    intro hstop
    exact any_breaksClass_of_breaksLiteral hstop
  rw [hasBreak_finishTable, hc.hasBreak_iff hraws (by decide) root_not_mem_seedTable, hasBreak_seedTable,
    GrammarSettings.breaksLine]
  simp only [Bool.or_eq_true, Bool.and_eq_true]
  constructor
  · rintro (((hd | hm) | hs) | ⟨hthinking, hstart | hstop⟩)
    · exact .inl (.inl hd)
    · exact .inl (.inr ⟨hm.1, .inl hm.2⟩)
    · exact .inr hs
    · exact .inl (.inr ⟨hthinking, .inr hstart⟩)
    · exact .inl (.inr ⟨hthinking, .inl (hlt hstop)⟩)
  · rintro ((hd | ⟨hthinking, hm | hstart⟩) | hs)
    · exact .inl (.inl (.inl hd))
    · exact .inl (.inl (.inr ⟨hthinking, hm⟩))
    · exact .inr ⟨hthinking, .inl hstart⟩
    · exact .inl (.inr hs)

end RecordGrammar
