import RecordGrammar.Proofs.Grammar.Order

/-!
# Integers and decimals

The expression of integers is an alternative of zero and of the numbers that begin with another digit, and only the
zero takes a sign: alternatives bind weakest. The expression of decimals has a group around the same two, so there the sign
is for both. `integer_admits_iff`: integers are the decimals without a point in which a sign stands before a zero only.
-/

namespace RecordGrammar
open Reading

/-- The digits before the point of a number that has no sign: a zero, or at most sixteen digits that begin with another one. -/
def wholeTexts : Language Char := just "0" + digitOf 1 9 * runs digitTexts 0 15

/-- If the text begins with a sign, a zero comes next. -/
def SignsZeroOnly (w : List Char) : Prop := ∀ c rest, w = '-' :: c :: rest → c = '0'

/-- The text is one that the expression of the scalar admits by the rules, where the expression is read from its own text. -/
def Scalar.Admits (rules : RuleTable) (kind : Scalar) (w : List Char) : Prop :=
  ∃ e, readExpr (scalarExpr kind).chars = some e ∧ Expr.Derives rules.body? e w

variable {w : List Char}

/-! ### Texts -/

theorem exists_digit_of_mem {l : Language Char} (h : w ∈ digitOf 1 9 * runs digitTexts 0 15 * l) :
    ∃ n rest, (1 ≤ n ∧ n ≤ 9) ∧ w = n.digitChar :: rest := by
  obtain ⟨_, ⟨_, ⟨n, hlo, hhi, rfl⟩, digits, _, rfl⟩, rest, _, rfl⟩ := h
  exact ⟨n, digits ++ rest, ⟨hlo, hhi⟩, rfl⟩

theorem digitChar_ne {n : Nat} (h : 1 ≤ n ∧ n ≤ 9) : n.digitChar ≠ '0' ∧ n.digitChar ≠ '-' := by
  rw [Ne, Ne, char_eq_iff, char_eq_iff, Nat.toNat_digitChar_of_lt_ten (by omega)]
  constructor
  · intro hzero
    change 48 + n = 48 at hzero
    omega
  · intro hsign
    change 48 + n = 45 at hsign
    omega

/-- Signed numbers are the integers, and those that begin with a sign and with another digit than zero. -/
theorem signed_eq : (1 + just "-") * wholeTexts * gapTexts =
    Scalar.integer.texts * gapTexts + just "-" * (digitOf 1 9 * runs digitTexts 0 15) * gapTexts := by
  simp only [wholeTexts, Scalar.texts, mul_add, add_mul, one_mul]
  ac_rfl

theorem mem_integer_iff :
    w ∈ Scalar.integer.texts * gapTexts ↔ w ∈ (1 + just "-") * wholeTexts * gapTexts ∧ SignsZeroOnly w := by
  rw [signed_eq, Language.mem_add]
  constructor
  · intro h
    refine ⟨.inl h, fun c rest hw => ?_⟩
    rw [Scalar.texts, add_mul, Language.mem_add] at h
    rcases h with h | h
    · obtain ⟨_, ⟨sign, hsign, _, rfl, rfl⟩, g, _, rfl⟩ := h
      rcases (Language.mem_add _ _ _).mp hsign with hsign | hsign
      · rw [Language.mem_one] at hsign
        subst hsign
        cases hw
      · rw [mem_just] at hsign
        subst hsign
        cases hw
        rfl
    · obtain ⟨n, rest', hn, rfl⟩ := exists_digit_of_mem h
      exact absurd (List.cons.inj hw).1 (digitChar_ne hn).2
  · rintro ⟨h | h, hsign⟩
    · exact h
    · rw [mul_assoc, mem_just_mul] at h
      obtain ⟨v, hv, rfl⟩ := h
      obtain ⟨n, rest, hn, rfl⟩ := exists_digit_of_mem hv
      exact absurd (hsign _ rest rfl) (digitChar_ne hn).1

theorem signed_mem_madeOf : (1 + just "-") * wholeTexts * gapTexts ∈ madeOf (· != '.') := by
  have hdigit : ∀ c : Char, c.isDigit = true → (c != '.') = true := fun c hc => by
    rw [bne_iff_ne]
    rintro rfl
    cases hc
  have hwhole : wholeTexts ∈ madeOf (· != '.') :=
    add_mem (just_mem_madeOf (by decide))
      (mul_mem (digitOf_mem_madeOf hdigit (by omega)) (runs_mem_within (digitOf_mem_madeOf hdigit (by omega))))
  exact mul_mem (mul_mem (add_mem (one_mem _) (just_mem_madeOf (by decide))) hwhole)
    (gapTexts_mem_madeOf (by decide) (by decide) (by decide))

/-- A decimal without a point is a signed number. -/
theorem mem_decimal_iff :
    w ∈ Scalar.decimal.texts * gapTexts ∧ '.' ∉ w ↔ w ∈ (1 + just "-") * wholeTexts * gapTexts := by
  have hdecimal : Scalar.decimal.texts * gapTexts = (1 + just "-") * wholeTexts * gapTexts +
      (1 + just "-") * wholeTexts * (just "." * runs digitTexts 1 15 * gapTexts) := by
    rw [Scalar.texts, ← wholeTexts, mul_add, mul_one, add_mul, mul_assoc _ (just "." * _)]
  rw [hdecimal, Language.mem_add]
  constructor
  · rintro ⟨h | h, hpoint⟩
    · exact h
    · obtain ⟨front, -, back, hback, rfl⟩ := Language.mem_mul.mp h
      rw [mul_assoc, mem_just_mul] at hback
      obtain ⟨v, -, rfl⟩ := hback
      exact absurd (List.mem_append_right front List.mem_cons_self) hpoint
  · intro h
    refine ⟨.inl h, fun hpoint => ?_⟩
    cases signed_mem_madeOf w h '.' hpoint

/-! ### Canonical spellings -/

theorem toDigits_mem (n : Nat) (hn : 0 < n) :
    Nat.toDigits 10 n ∈ digitOf 1 9 * digitTexts ^ ((Nat.toDigits 10 n).length - 1) := by
  induction n using Nat.strong_induction_on with
  | h n ih =>
    by_cases hlt : n < 10
    · rw [Nat.toDigits_of_lt_base hlt, List.length_singleton, Nat.sub_self, pow_zero, mul_one]
      exact ⟨n, hn, by omega, rfl⟩
    · have hrest : 0 < n / 10 := Nat.div_pos (by omega) (by omega)
      have hlast : [(n % 10).digitChar] ∈ digitTexts := ⟨n % 10, Nat.zero_le _, by omega, rfl⟩
      have hfront := ih (n / 10) (by omega) hrest
      have hpos := Nat.length_toDigits_pos (b := 10) (n := n / 10)
      rw [Nat.toDigits_of_base_le (by omega) (by omega), List.length_append, List.length_singleton, Nat.add_sub_cancel]
      obtain ⟨k, hk⟩ : ∃ k, (Nat.toDigits 10 (n / 10)).length = k + 1 := ⟨_, (Nat.succ_pred_eq_of_pos hpos).symm⟩
      rw [hk, Nat.add_sub_cancel] at hfront
      rw [hk, pow_succ, ← mul_assoc]
      exact Language.append_mem_mul hfront hlast

theorem toString_mem_wholeTexts {n : Nat} (h : n < 10 ^ 16) : (toString n).toList ∈ wholeTexts := by
  rw [Nat.toString_eq_repr, Nat.toList_repr, wholeTexts, Language.mem_add]
  rcases Nat.eq_zero_or_pos n with rfl | hn
  · rw [Nat.toDigits_zero]
    exact .inl rfl
  · have hlength := (Nat.length_toDigits_le_iff (b := 10) (k := 16) (by omega) (by omega)).mpr h
    exact .inr ((mul_runs _ _ _ _).mpr ⟨_, Nat.zero_le _, by omega, toDigits_mem n hn⟩)

theorem toList_toString (z : Int) : (toString z).toList =
    if 0 ≤ z then (toString z.toNat).toList else '-' :: (toString (-z).toNat).toList := by
  rw [Int.toString_eq_repr, Int.repr_eq_if]
  split
  · rfl
  · rw [String.toList_append]
    rfl

/-- The usual spelling of an integer of at most sixteen digits is a signed number. -/
theorem toString_mem_signed {z : Int} (h : z.natAbs < 10 ^ 16) :
    (toString z).toList ∈ (1 + just "-") * wholeTexts * gapTexts := by
  have hgap : ∀ {v}, v ∈ (1 + just "-") * wholeTexts → v ∈ (1 + just "-") * wholeTexts * gapTexts := fun hv =>
    le_mul_of_one_le_right' one_le_gapTexts hv
  refine hgap ?_
  rw [toList_toString, add_mul, one_mul, Language.mem_add]
  by_cases hz : 0 ≤ z
  · rw [if_pos hz]
    exact .inl (toString_mem_wholeTexts (by omega))
  · rw [if_neg hz]
    exact .inr (mem_just_mul.mpr ⟨_, toString_mem_wholeTexts (by omega), rfl⟩)

theorem signsZeroOnly_toString_iff {z : Int} : SignsZeroOnly (toString z).toList ↔ 0 ≤ z := by
  rw [toList_toString]
  by_cases hz : 0 ≤ z
  · rw [if_pos hz]
    refine ⟨fun _ => hz, fun _ c rest hw => ?_⟩
    have hsign : '-' ∈ (toString z.toNat).toList := hw ▸ List.mem_cons_self
    cases isDigit_of_mem_toString hsign
  · rw [if_neg hz]
    refine ⟨fun hsign => ?_, fun h => absurd h hz⟩
    obtain ⟨_, ⟨n, hlo, hhi, rfl⟩, rest, -, hw⟩ := Language.mem_mul.mp (toDigits_mem (-z).toNat (by omega))
    have hdigits : (toString (-z).toNat).toList = n.digitChar :: rest := by
      rw [Nat.toString_eq_repr, Nat.toList_repr, ← hw]
      rfl
    rw [hdigits] at hsign
    exact absurd (hsign _ rest rfl) (digitChar_ne ⟨hlo, hhi⟩).1

/-! ### Expressions -/

section
variable {settings : GrammarSettings} {shape : Shape} {table rules : RuleTable}

/-- What the expression of a scalar admits by the rules of any grammar. -/
theorem Scalar.admits_iff (h : (shape.grammar settings).1 = .ok table) (hread : readRules table.render = some rules)
    (kind : Scalar) : kind.Admits rules w ↔ w ∈ kind.texts * gapTexts := by
  have hexpr := readExpr_chars (Expr.inRow_scalar kind).1.choice_of_row
  have hnames : (scalarExpr kind).ruleNames ⊆ (seedTable settings).names :=
    List.Subset.trans (Expr.ruleNames_scalar kind) (tokenNames_subset_seedTable settings)
  have hderives := derives_seedTable_iff (w := w) (seedTable_extends_of_grammar h) hnames (.inr ⟨rfl, hread⟩)
  rw [← (hasTokens_seedTable settings).texts_scalar kind, Expr.mem_texts, ← hderives]
  refine ⟨fun ⟨e, he, hw⟩ => ?_, fun hw => ⟨_, hexpr, hw⟩⟩
  rw [hexpr] at he
  cases he
  exact hw

/-- By the rules of any grammar, read from its text, the expression of integers admits a text if and only if that of decimals
does, and the text has no point, and a sign in it stands before a zero. Of the usual spellings of integers of at most sixteen
digits that of decimals admits all and that of integers those without a sign. -/
theorem integer_admits_iff (h : (shape.grammar settings).1 = .ok table) (hread : readRules table.render = some rules) :
    (∀ w, Scalar.integer.Admits rules w ↔ Scalar.decimal.Admits rules w ∧ '.' ∉ w ∧ SignsZeroOnly w) ∧
    ∀ z : Int, z.natAbs < 10 ^ 16 →
      Scalar.decimal.Admits rules (toString z).toList ∧ (Scalar.integer.Admits rules (toString z).toList ↔ 0 ≤ z) := by
  refine ⟨fun w => ?_, fun z hz => ?_⟩
  · rw [Scalar.admits_iff h hread, Scalar.admits_iff h hread, mem_integer_iff, ← mem_decimal_iff, and_assoc]
  · have hsigned := toString_mem_signed hz
    rw [Scalar.admits_iff h hread, Scalar.admits_iff h hread, mem_integer_iff, signsZeroOnly_toString_iff]
    exact ⟨(mem_decimal_iff.mpr hsigned).1, and_iff_right hsigned⟩

end

theorem integer_admits_iff_price :
    ∃ table rules, ((Shape.object "Order" [⟨"price", .scalar .decimal "decimal", none⟩]).grammar {}).1 = .ok table ∧
      readRules table.render = some rules ∧
      ∀ w, Scalar.integer.Admits rules w ↔ Scalar.decimal.Admits rules w ∧ '.' ∉ w ∧ SignsZeroOnly w := by
  have h : ((Shape.object "Order" [⟨"price", .scalar .decimal "decimal", none⟩]).grammar {}).1 =
      .ok (finishTable {} (objectExpr ["root-price-kv"])
        ((seedTable {}).push "root-price-kv" (fieldExpr "price" decimalExpr))) := by
    rfl
  have hread := readRules_grammar_of_noRawFormat h (by decide)
  exact ⟨_, _, h, hread, (integer_admits_iff h hread).1⟩

/-- The sign of -5 makes it no integer, while a decimal it is. -/
theorem negative_not_integer :
    ∃ table rules, ((Shape.scalar .integer "integer").grammar {}).1 = .ok table ∧ readRules table.render = some rules ∧
      Scalar.decimal.Admits rules "-5".toList ∧ '.' ∉ "-5".toList ∧ ¬ Scalar.integer.Admits rules "-5".toList := by
  have h : ((Shape.scalar .integer "integer").grammar {}).1 = .ok (finishTable {} integerExpr (seedTable {})) := by
    rfl
  have hread := readRules_grammar_of_noRawFormat h (by decide)
  have hspelling : (toString (-5 : Int)).toList = "-5".toList := by
    decide
  have hsigned : "-5".toList ∈ (1 + just "-") * wholeTexts * gapTexts := hspelling ▸ toString_mem_signed (by decide)
  refine ⟨_, _, h, hread, (Scalar.admits_iff h hread _).mpr (mem_decimal_iff.mpr hsigned).1, by decide, fun hinteger => ?_⟩
  have hsign := (mem_integer_iff.mp ((Scalar.admits_iff h hread _).mp hinteger)).2
  cases hsign '5' [] rfl

end RecordGrammar
