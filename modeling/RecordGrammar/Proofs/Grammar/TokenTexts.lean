import RecordGrammar.Proofs.Grammar.Language
import RecordGrammar.Proofs.Shape.Texts
import RecordGrammar.Proofs.Text.Classes

/-!
# The texts of tokens

The fixed expressions of a grammar stand for the texts that the reference gives: white space, characters of a
string, scalars, bounded strings, formats.
-/

namespace RecordGrammar
open RecordGrammar.Expr

/-! ### Classes -/

theorem admits_ofRanges {rs : List (Char × Char)} {c : Char} :
    (CharClass.ofRanges rs).admits c = true ↔ ∃ r ∈ rs, r.1 ≤ c ∧ c ≤ r.2 := by
  simp [CharClass.admits, CharClass.ofRanges, ClassItem.covers]

theorem admits_ofChars {cs : List Char} {c : Char} : (CharClass.ofChars cs).admits c = true ↔ c ∈ cs := by
  simp [CharClass.admits, CharClass.ofChars, ClassItem.covers]

/-- A range of digits is a range of values. -/
theorem range_digits_iff {a b : Nat} (h : b ≤ 9) {c : Char} :
    (0x30 + a ≤ c.toNat ∧ c.toNat ≤ 0x30 + b) ↔ ∃ n, (a ≤ n ∧ n ≤ b) ∧ c = n.digitChar := by
  refine ⟨fun ⟨ha, hb⟩ => ⟨c.toNat - 0x30, ⟨by omega, by omega⟩, ?_⟩, ?_⟩
  · rw [char_eq_iff, Nat.toNat_digitChar_of_lt_ten (by omega)]
    omega
  · rintro ⟨n, ⟨ha, hb⟩, rfl⟩
    rw [Nat.toNat_digitChar_of_lt_ten (by omega)]
    omega

theorem oneChar_digits {a b : Nat} (h : b ≤ 9) {p : Char → Prop}
    (hp : ∀ c, p c ↔ 0x30 + a ≤ c.toNat ∧ c.toNat ≤ 0x30 + b) : oneChar p = digitOf a b := by
  ext w
  rw [mem_oneChar, mem_digitOf]
  refine ⟨?_, ?_⟩
  · rintro ⟨c, hc, rfl⟩
    obtain ⟨n, ⟨ha, hb⟩, rfl⟩ := (range_digits_iff h).mp ((hp c).mp hc)
    exact ⟨n, ha, hb, rfl⟩
  · rintro ⟨n, ha, hb, rfl⟩
    exact ⟨_, (hp _).mpr ((range_digits_iff h).mpr ⟨n, ⟨ha, hb⟩, rfl⟩), rfl⟩

namespace Expr
variable {body : String → Option Expr}

theorem texts_digit : (cls .digit).texts body = digitTexts := by
  rw [texts_cls]
  refine oneChar_digits (Nat.le_refl 9) fun c => ?_
  simp [CharClass.digit, admits_ofRanges, char_le_iff]

theorem texts_hexDigit : (cls .hexDigit).texts body = hexTexts := by
  rw [texts_cls]
  refine oneChar_congr fun c => ?_
  simp [CharClass.hexDigit, admits_ofRanges, isHexDigit_iff]

@[simp] theorem texts_times_digit (n : Nat) : (times .digit n).texts body = digitTexts ^ n := by
  rw [times, texts_exactly, texts_digit]

@[simp] theorem texts_times_hexDigit (n : Nat) : (times .hexDigit n).texts body = hexTexts ^ n := by
  rw [times, texts_exactly, texts_hexDigit]

@[simp] theorem texts_digits (lo hi : Nat) : (digits lo hi).texts body = runs digitTexts lo hi := by
  rw [digits, texts_between, texts_digit]

theorem texts_amongst (s : String) : (amongst s).texts body = oneChar (· ∈ s.toList) := by
  rw [amongst, texts_cls]
  exact oneChar_congr fun c => admits_ofChars

theorem texts_span (a b : Char) : (span a b).texts body = oneChar fun c => a ≤ c ∧ c ≤ b := by
  rw [span, texts_cls]
  exact oneChar_congr fun c => by simp [admits_ofRanges]

theorem texts_amongst_singleton (c : Char) : (amongst (String.singleton c)).texts body = just (String.singleton c) := by
  rw [texts_amongst]
  ext w
  simp [mem_oneChar, mem_just]

theorem texts_span_digits (a b : Nat) (h : b ≤ 9) (ha : a ≤ 9) : (span a.digitChar b.digitChar).texts body = digitOf a b := by
  rw [texts_span]
  refine oneChar_digits h fun c => ?_
  rw [char_le_iff, char_le_iff, Nat.toNat_digitChar_of_lt_ten (by omega), Nat.toNat_digitChar_of_lt_ten (by omega)]

theorem texts_amongst_digit (a : Nat) (h : a ≤ 9) :
    (amongst (String.singleton a.digitChar)).texts body = digitOf a a := by
  rw [texts_amongst]
  refine oneChar_digits h fun c => ?_
  rw [String.toList_singleton, List.mem_singleton, char_eq_iff, Nat.toNat_digitChar_of_lt_ten (by omega)]
  omega

@[simp] theorem texts_twoDigits (a b : Expr) : (twoDigits a b).texts body = a.texts body * b.texts body := by
  rw [twoDigits, texts_row, List.map_cons, List.map_singleton, List.prod_cons, List.prod_singleton]

/-! ### Dates -/

theorem texts_sixty : sixtyExpr.texts body = numberOf 0 59 := by
  rw [sixtyExpr, texts_twoDigits, texts_digit]
  exact (congrArg (· * _) (texts_span_digits 0 5 (by omega) (by omega))).trans (digitOf_mul_digit 0 5)

theorem texts_zeroOne : (amongst "01").texts body = digitOf 0 1 := by
  rw [texts_amongst]
  refine oneChar_digits (by omega) fun c => ?_
  simp [char_eq_iff]
  omega

theorem texts_oneTwo : (amongst "12").texts body = digitOf 1 2 := by
  rw [texts_amongst]
  refine oneChar_digits (by omega) fun c => ?_
  simp [char_eq_iff]
  omega

theorem texts_hour : hourExpr.texts body = numberOf 0 23 := by
  have h2 : (amongst "2").texts body = digitOf 2 2 := texts_amongst_digit 2 (by omega)
  have h03 : (span '0' '3').texts body = digitOf 0 3 := texts_span_digits 0 3 (by omega) (by omega)
  rw [hourExpr, texts_group, texts_oneOf _ (List.cons_ne_nil _ _)]
  simp only [List.map_cons, List.map_nil, List.sum_cons, List.sum_nil, texts_twoDigits, texts_digit, add_zero, texts_zeroOne,
    h2, h03]
  rw [digitTexts, digitOf_mul_digit, digit_mul_digitOf 2 0 3 (by omega), numberOf_add 0 19 23 (by omega) (by omega)]

theorem texts_month : (group (oneOf .tight [twoDigits (amongst "0") (span '1' '9'),
    twoDigits (amongst "1") (span '0' '2')])).texts body = numberOf 1 12 := by
  have h0 : (amongst "0").texts body = digitOf 0 0 := texts_amongst_digit 0 (by omega)
  have h1 : (amongst "1").texts body = digitOf 1 1 := texts_amongst_digit 1 (by omega)
  have h19 : (span '1' '9').texts body = digitOf 1 9 := texts_span_digits 1 9 (by omega) (by omega)
  have h02 : (span '0' '2').texts body = digitOf 0 2 := texts_span_digits 0 2 (by omega) (by omega)
  rw [texts_group, texts_oneOf _ (List.cons_ne_nil _ _)]
  simp only [List.map_cons, List.map_nil, List.sum_cons, List.sum_nil, texts_twoDigits, add_zero, h0, h1, h19, h02]
  rw [digit_mul_digitOf 0 1 9 (by omega), digit_mul_digitOf 1 0 2 (by omega), numberOf_add 1 9 12 (by omega) (by omega)]

theorem texts_day : (group (oneOf .tight [twoDigits (amongst "0") (span '1' '9'), twoDigits (amongst "12"),
    twoDigits (amongst "3") (amongst "01")])).texts body = numberOf 1 31 := by
  have h0 : (amongst "0").texts body = digitOf 0 0 := texts_amongst_digit 0 (by omega)
  have h3 : (amongst "3").texts body = digitOf 3 3 := texts_amongst_digit 3 (by omega)
  have h19 : (span '1' '9').texts body = digitOf 1 9 := texts_span_digits 1 9 (by omega) (by omega)
  rw [texts_group, texts_oneOf _ (List.cons_ne_nil _ _)]
  simp only [List.map_cons, List.map_nil, List.sum_cons, List.sum_nil, texts_twoDigits, texts_digit, add_zero, h0, h3,
    h19, texts_zeroOne, texts_oneTwo]
  rw [digit_mul_digitOf 0 1 9 (by omega), digitTexts, digitOf_mul_digit, digit_mul_digitOf 3 0 1 (by omega),
    numberOf_add 10 29 31 (by omega) (by omega), numberOf_add 1 9 31 (by omega) (by omega)]

/-! ### Arrays -/

/-- The four ways in which the bounds of an array are written all mean the same, whatever its elements and the blanks between
them are. -/
theorem texts_arrayExpr (item : String) {lo hi : Nat} (hle : lo ≤ hi) :
    (arrayExpr item lo hi).texts body = just "[" * space.texts body *
      listOf (just "," * space.texts body) ((rule item).texts body) lo hi * (just "]" * space.texts body) := by
  have hmore : (group (row .spaced [word ",", .space, rule item])).texts body =
      just "," * space.texts body * (rule item).texts body := by
    rw [texts_group, texts_row, List.map_cons, List.map_cons, List.map_singleton, List.prod_cons, List.prod_cons,
      List.prod_singleton, texts_word, ← mul_assoc]
  have hframe : ∀ es : List Expr, (row .spaced ([word "[", .space] ++ es ++ [word "]", .space])).texts body =
      just "[" * space.texts body * (es.map (texts body)).prod * (just "]" * space.texts body) := by
    intro es
    simp only [texts_row, List.map_append, List.map_cons, List.map_nil, List.prod_append, List.prod_cons, List.prod_nil,
      texts_word, mul_one]
  have hrun : ∀ a b : Nat, (([rule item, repeated (group (row .spaced [word ",", .space, rule item]))
      (.between a b)] : List Expr).map (texts body)).prod =
        (rule item).texts body * runs (just "," * space.texts body * (rule item).texts body) a b := fun a b => by
    rw [List.map_cons, List.map_singleton, List.prod_cons, List.prod_singleton, texts_between, hmore]
  rw [arrayExpr, hframe]
  congr 2
  -- no elements, an optional row of them, a fixed number, a number between two bounds
  rcases hi with _ | hi
  · rw [Nat.le_zero.mp hle, if_pos rfl, listOf_zero]
    rfl
  have hpred : ((hi + 1 : Nat) : Int) - 1 = (hi : Int) := by omega
  rw [if_neg (Nat.succ_ne_zero hi), hpred]
  rcases lo with _ | lo
  · rw [if_pos rfl, listOf_zero_succ]
    rcases hi with _ | hi
    · rw [if_pos rfl, runs_self, pow_zero, mul_one, List.map_singleton, List.prod_singleton, texts_maybe]
    · rw [if_neg (by omega), List.map_singleton, List.prod_singleton, texts_maybe, texts_group, texts_row]
      exact congrArg (1 + ·) (hrun 0 (hi + 1))
  · rw [if_neg (Nat.succ_ne_zero lo), listOf_succ]
    by_cases he : lo = hi
    · subst he
      rw [if_pos rfl, runs_self]
      rcases lo with _ | lo
      · rw [if_pos rfl, List.map_singleton, List.prod_singleton, pow_zero, mul_one]
      · rw [if_neg (by omega), List.map_cons, List.map_singleton, List.prod_cons, List.prod_singleton, texts_exactly,
          hmore, Nat.add_sub_cancel]
    · rw [if_neg (by omega), Nat.add_sub_cancel]
      exact hrun lo hi

/-! ### Characters of strings -/

theorem texts_charBody (d : Delimiters) : (charBody d).texts body = charTexts d := by
  rw [charBody, texts_oneOf _ (List.cons_ne_nil _ _)]
  have hplain : ∀ c, ({ negated := true, items := [.one { char := '"' }, .one { char := '\\' },
      .one { char := '\x7f', spelling := .code },
      .range { char := '\x00', spelling := .code } { char := '\x1f', spelling := .code },
      .one { char := d.opening }, .one { char := d.closing }] : CharClass}).admits c = true ↔
      c ≠ '"' ∧ c ≠ '\\' ∧ c ≠ '\x7f' ∧ 0x20 ≤ c.toNat ∧ c ≠ d.opening ∧ c ≠ d.closing := by
    intro c
    have hcontrol : c < '\x00' ∨ '\x1f' < c ↔ 0x20 ≤ c.toNat := by
      rw [char_lt_iff, char_lt_iff]
      exact ⟨fun h => h.elim (fun h => absurd h (Nat.not_lt_zero _)) id, .inr⟩
    simp only [CharClass.admits, ClassItem.covers, List.any_cons, List.any_nil, Bool.or_false, bne_iff_ne, ne_eq,
      Bool.not_eq_true, Bool.or_eq_false_iff, decide_eq_false_iff_not, Bool.and_eq_false_iff, Char.not_le]
    rw [hcontrol]
  have hback : (amongst "\\").texts body = just "\\" := texts_amongst_singleton '\\'
  have hshort : (amongst "\"\\bfnrt").texts body = oneChar (· ∈ ['"', '\\', 'b', 'f', 'n', 'r', 't']) := by
    rw [texts_amongst]
    exact oneChar_congr fun c => by simp
  simp only [List.map_cons, List.map_nil, List.sum_cons, List.sum_nil, texts_cls, texts_row, List.prod_cons,
    List.prod_nil, mul_one, add_zero, texts_group, texts_oneOf, ne_eq, reduceCtorEq, not_false_eq_true, texts_word,
    texts_times_hexDigit, hback, hshort]
  rw [oneChar_congr hplain, charTexts]

end Expr

/-- A table of rules with those for white space and for characters. -/
structure HasTokens (settings : GrammarSettings) (body : String → Option Expr) : Prop where
  space : body "space" = some spaceBody
  char : body "char" = some (charBody settings.delimiters)

namespace HasTokens
variable {settings : GrammarSettings} {body : String → Option Expr}

theorem texts_space (h : HasTokens settings body) : Expr.space.texts body = gapTexts := by
  rw [Expr.space, texts_rule h.space, spaceBody, texts_oneOf _ (List.cons_ne_nil _ _)]
  have hblank : (amongst " \t").texts body = oneChar fun c => c = ' ' ∨ c = '\t' := by
    rw [texts_amongst]
    exact oneChar_congr fun c => by simp
  simp only [List.map_cons, List.map_nil, List.sum_cons, List.sum_nil, texts_empty, texts_word, texts_row, List.prod_cons,
    List.prod_nil, mul_one, add_zero]
  rw [gapTexts, add_assoc]
  exact congrArg (fun l => 1 + (just " " + just "\n" * l)) ((texts_between 0 20).trans (by rw [hblank]))

theorem texts_char (h : HasTokens settings body) : (rule "char").texts body = charTexts settings.delimiters := by
  rw [texts_rule h.char, texts_charBody]

/-! ### Scalars -/

theorem texts_integer (h : HasTokens settings body) :
    integerExpr.texts body = Scalar.integer.texts * gapTexts := by
  have h0 : (amongst "0").texts body = just "0" := texts_amongst_singleton '0'
  have h19 : (span '1' '9').texts body = digitOf 1 9 := texts_span_digits 1 9 (by omega) (by omega)
  simp only [integerExpr, texts_row, List.map_cons, List.map_nil, List.prod_cons, List.prod_nil, List.sum_cons,
    List.sum_nil, texts_group, texts_oneOf, ne_eq, reduceCtorEq, not_false_eq_true, texts_maybe, texts_word, texts_digits,
    mul_one, add_zero, h0, h19, h.texts_space, Scalar.texts]

theorem texts_decimal (h : HasTokens settings body) :
    decimalExpr.texts body = Scalar.decimal.texts * gapTexts := by
  have h0 : (amongst "0").texts body = just "0" := texts_amongst_singleton '0'
  have h19 : (span '1' '9').texts body = digitOf 1 9 := texts_span_digits 1 9 (by omega) (by omega)
  simp only [decimalExpr, texts_row, List.map_cons, List.map_nil, List.prod_cons, List.prod_nil, List.sum_cons,
    List.sum_nil, texts_group, texts_oneOf, ne_eq, reduceCtorEq, not_false_eq_true, texts_maybe, texts_word, texts_digits,
    mul_one, add_zero, h0, h19, h.texts_space, Scalar.texts, mul_assoc]

theorem texts_boolean (h : HasTokens settings body) :
    booleanExpr.texts body = Scalar.boolean.texts * gapTexts := by
  simp only [booleanExpr, texts_row, List.map_cons, List.map_nil, List.prod_cons, List.prod_nil, List.sum_cons,
    List.sum_nil, texts_group, texts_oneOf, ne_eq, reduceCtorEq, not_false_eq_true, texts_word, mul_one, add_zero,
    h.texts_space, Scalar.texts]

theorem texts_date (h : HasTokens settings body) : dateExpr.texts body = Scalar.date.texts * gapTexts := by
  have hsign : (cls { items := [.one { char := '+' }, .one { char := '-', spelling := .bare }] }).texts body =
      oneChar fun c => c = '+' ∨ c = '-' := by
    rw [texts_cls]
    exact oneChar_congr fun c => by simp [CharClass.admits, ClassItem.covers]
  rw [dateExpr, texts_row]
  simp only [List.map_cons, List.map_nil, List.prod_cons, List.prod_nil, texts_month, texts_day]
  simp only [texts_row, List.map_cons, List.map_nil, List.prod_cons, List.prod_nil, List.sum_cons,
    List.sum_nil, texts_group, texts_oneOf, ne_eq, reduceCtorEq, not_false_eq_true, texts_maybe, texts_word, texts_quote,
    texts_times_digit, texts_hour, texts_sixty, mul_one, add_zero, hsign, h.texts_space]
  simp only [Scalar.texts, quoted, dateTexts, clockTexts, mul_assoc]

theorem texts_guid (h : HasTokens settings body) : guidExpr.texts body = Scalar.guid.texts * gapTexts := by
  simp only [guidExpr, texts_row, List.map_cons, List.map_nil, List.prod_cons, List.prod_nil, texts_word, texts_quote,
    texts_times_hexDigit, mul_one, h.texts_space, Scalar.texts, quoted, guidTexts, mul_assoc]

theorem texts_scalar (h : HasTokens settings body) (kind : Scalar) :
    (scalarExpr kind).texts body = kind.texts * gapTexts := by
  cases kind with
  | integer => exact h.texts_integer
  | decimal => exact h.texts_decimal
  | boolean => exact h.texts_boolean
  | date => exact h.texts_date
  | guid => exact h.texts_guid

/-! ### Strings -/

theorem texts_anyText (h : HasTokens settings body) {values : List String} (hne : values ≠ []) :
    (anyText values).texts body = literalsOf values * gapTexts := by
  have hsum : ∀ vs : List String, (vs.map (texts body ∘ jsonText)).sum = literalsOf vs := by
    intro vs
    induction vs with
    | nil => exact Language.ext fun w => by simp [literalsOf, Language.zero_def]
    | cons v vs ih =>
      rw [List.map_cons, List.sum_cons, ih, Function.comp_apply, texts_jsonText]
      ext w
      rw [Language.mem_add, mem_just, mem_literalsOf, mem_literalsOf]
      simp only [List.mem_cons, exists_eq_or_imp]
  rw [anyText, texts_row, List.map_cons, List.map_singleton, List.prod_cons, List.prod_singleton, h.texts_space, texts_group,
    texts_oneOf _ (by simpa using hne), List.map_map, hsum]

theorem texts_boundedString (h : HasTokens settings body) (lo hi : Nat) :
    (boundedStringExpr lo hi).texts body = quoted (runs (charTexts settings.delimiters) lo hi) * gapTexts := by
  simp only [boundedStringExpr, texts_row, List.map_cons, List.map_nil, List.prod_cons, List.prod_nil, texts_quote,
    texts_between, mul_one, h.texts_char, h.texts_space, quoted, mul_assoc]

theorem texts_named (h : HasTokens settings body) (f : NamedFormat) :
    f.expr.texts body = quoted (someRuns (oneChar f.Holds)) * gapTexts := by
  have hclass : ∀ c, f.charClass.admits c = true ↔ f.Holds c := by
    intro c
    cases f <;> simp [NamedFormat.charClass, NamedFormat.Holds, CharClass.admits, CharClass.ofRanges, CharClass.digit,
      CharClass.hexDigit, ClassItem.covers, isUpper_iff, isLower_iff, isDigit_iff, isHexDigit_iff, Char.isAlphanum,
      Char.isAlpha, or_comm, or_assoc]
  simp only [NamedFormat.expr, texts_row, List.map_cons, List.map_nil, List.prod_cons, List.prod_nil, texts_quote,
    texts_some, texts_cls, oneChar_congr hclass, mul_one, h.texts_space, quoted, mul_assoc]

theorem texts_patternChar (h : HasTokens settings body) (c : Char) :
    (patternChar c).texts body = patternTexts settings.delimiters c := by
  rw [patternChar]
  unfold placeholder?
  split
  · exact texts_digit
  · exact texts_digit
  · exact (texts_span 'A' 'Z').trans (oneChar_congr fun c => isUpper_iff.symm)
  · exact (texts_span 'a' 'z').trans (oneChar_congr fun c => isLower_iff.symm)
  · rw [Option.getD_some, texts_cls]
    refine oneChar_congr fun c => ?_
    simp [admits_ofRanges, Char.isAlphanum, Char.isAlpha, isUpper_iff, isLower_iff, isDigit_iff, or_comm, or_assoc]
  · exact h.texts_char
  · rw [Option.getD_none, texts_literal, patternTexts]
    all_goals assumption

theorem texts_pattern (h : HasTokens settings body) (s : String) :
    (patternExpr s).texts body = quoted ((s.toList.map (patternTexts settings.delimiters)).prod) * gapTexts := by
  have hchars : s.toList.map (texts body ∘ patternChar) = s.toList.map (patternTexts settings.delimiters) :=
    List.map_congr_left fun c _ => h.texts_patternChar c
  rw [patternExpr, texts_row]
  simp only [List.map_cons, List.map_append, List.map_map, List.map_nil, List.prod_cons, List.prod_append, List.prod_nil,
    texts_quote, mul_one, h.texts_space, hchars, quoted, mul_assoc, List.cons_append]

/-- What the rule of a string says stands for the texts of the string. -/
theorem texts_ruleBody (h : HasTokens settings body) {text : StringShape} {e : Expr} (hb : text.RuleBody settings e)
    (hraw : ∀ r, text.activeFormat? ≠ some (.raw r)) : e.texts body = text.texts settings * gapTexts := by
  cases hb with
  | values hv => rw [StringShape.texts, if_pos hv, h.texts_anyText hv]
  | @format f _ ns hf hc =>
    have hv : ¬ text.allowed ≠ [] := fun hv => by rw [StringShape.activeFormat?, if_pos hv] at hf; cases hf
    simp only [StringShape.texts, if_neg hv, hf]
    cases f with
    | raw r => exact absurd hf (hraw r)
    | named f => cases hc; exact h.texts_named f
    | pattern s => cases hc; exact h.texts_pattern s
    | unknown s =>
      rw [StringFormat.compile] at hc
      split at hc
      · cases hc
      · cases hc; exact h.texts_boundedString _ _

theorem texts_plain (h : HasTokens settings body) {text : StringShape} (hp : text.Plain) :
    (boundedStringExpr (clampedLimits text.minLength text.maxLength settings.lengths).1
      (clampedLimits text.minLength text.maxLength settings.lengths).2).texts body = text.texts settings * gapTexts := by
  have hv : ¬ text.allowed ≠ [] := fun hv => hv hp.1
  simp only [StringShape.texts, if_neg hv, hp.2]
  exact h.texts_boundedString _ _

/-! ### Arrays and objects -/

theorem texts_comma (h : HasTokens settings body) : (row .spaced [word ",", .space]).texts body = commaTexts := by
  rw [texts_row, List.map_cons, List.map_singleton, List.prod_cons, List.prod_singleton, texts_word, h.texts_space]
  rfl

theorem texts_array (h : HasTokens settings body) (item : String) {lo hi : Nat} (hle : lo ≤ hi) :
    (arrayExpr item lo hi).texts body =
      token "[" * listOf commaTexts ((rule item).texts body) lo hi * token "]" := by
  rw [texts_arrayExpr item hle, h.texts_space]
  rfl

/-- An object is its fields, joined by commas. -/
theorem texts_object (h : HasTokens settings body) (keys : List String) :
    (objectExpr keys).texts body =
      token "\x7b" * joined commaTexts (keys.map fun k => (rule k).texts body) * token "\x7d" := by
  have hjoined : (((keys.map rule).intersperse (row .spaced [word ",", .space])).map (texts body)).prod =
      joined commaTexts (keys.map fun k => (rule k).texts body) := by
    induction keys with
    | nil => rfl
    | cons k keys ih =>
      cases keys with
      | nil => exact List.prod_singleton
      | cons k' keys =>
        simp only [List.map_cons, List.intersperse_cons_cons, List.prod_cons, joined] at ih ⊢
        rw [ih, h.texts_comma, mul_assoc]
  simp only [objectExpr, texts_row, List.map_append, List.map_cons, List.map_nil, List.prod_append, List.prod_cons,
    List.prod_nil, texts_word, h.texts_space, mul_one, token, hjoined]

theorem texts_field (h : HasTokens settings body) (name : String) (value : Expr) :
    (fieldExpr name value).texts body = token (Json.literal name) * token ":" * value.texts body := by
  simp only [fieldExpr, texts_row, List.map_cons, List.map_nil, List.prod_cons, List.prod_nil, texts_jsonText, texts_word,
    h.texts_space, mul_one, token, mul_assoc]

end HasTokens

end RecordGrammar
