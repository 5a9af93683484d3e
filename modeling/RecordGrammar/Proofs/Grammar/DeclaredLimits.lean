import RecordGrammar.Proofs.Grammar.Admits
import RecordGrammar.Proofs.Grammar.FirstRules

/-!
# The bounds that a shape declares

`declared_limits_kept`: where the bounds that an array or a string declares agree with each other, every text that its
expression admits keeps them, with one exception. A minimum that is greater than the default maximum, and has no
declared maximum beside it, is brought down to that default.
-/

namespace RecordGrammar
open RecordGrammar.Expr Reading JsonText

/-- The declared bounds do not contradict each other. -/
def Consistent (lo hi : Option Nat) : Prop := ∀ a ∈ lo, ∀ b ∈ hi, a ≤ b

/-- The number keeps the declared bounds, or is the default maximum in place of a minimum beyond it. -/
structure KeepsBounds (lo hi : Option Nat) (default : Limits) (n : Nat) : Prop where
  max : ∀ b ∈ hi, n ≤ b
  min : ∀ a ∈ lo, hi ≠ none ∨ a ≤ default.max → a ≤ n
  lowered : ∀ a ∈ lo, hi = none → default.max < a → n = default.max

theorem keepsBounds_of_clamped {lo hi : Option Nat} {default : Limits} {n : Nat} (h : Consistent lo hi)
    (hlo : (clampedLimits lo hi default).1 ≤ n) (hhi : n ≤ (clampedLimits lo hi default).2) :
    KeepsBounds lo hi default n := by
  rw [Consistent] at h
  simp only [clampedLimits, effectiveLimits] at hlo hhi
  constructor
  · rintro b rfl
    exact hhi
  · rintro a rfl hkept
    cases hi with
    | none =>
      simp at hlo hkept
      omega
    | some b =>
      have := h a rfl b rfl
      simp at hlo
      omega
  · rintro a rfl rfl hlt
    simp at hlo hhi
    omega

/-! ### Texts of arrays and strings -/

section
variable {settings : GrammarSettings} {d : Delimiters} {w : List Char} {n k : Nat}

/-- The text is a string of `n` characters or escapes, with white space behind it. -/
def HasUnits (d : Delimiters) (n : Nat) (w : List Char) : Prop := w ∈ quoted (charTexts d ^ n) * gapTexts

theorem exists_part_of_mem_pow {s : List Char} (h : s ∈ charTexts d ^ (n + 1)) :
    ∃ p t u, Part p u ∧ t ∈ charTexts d ^ n ∧ s = p ++ t := by
  rw [pow_succ'] at h
  obtain ⟨p, hp, t, ht, rfl⟩ := h
  obtain ⟨u, hu⟩ := exists_part_of_mem_charTexts hp
  exact ⟨p, t, u, hu, ht, rfl⟩

theorem units_unique {s s' r r' : List Char} (h : s ∈ charTexts d ^ n) (h' : s' ∈ charTexts d ^ k)
    (heq : s ++ '"' :: r = s' ++ '"' :: r') : n = k := by
  induction n generalizing s s' k with
  | zero =>
    rw [pow_zero, Language.mem_one] at h
    subst h
    cases k with
    | zero => rfl
    | succ k =>
      obtain ⟨p, t, u, hp, -, rfl⟩ := exists_part_of_mem_pow h'
      rw [List.append_assoc] at heq
      exact absurd heq.symm hp.ne_quote
  | succ n ih =>
    obtain ⟨p, t, u, hp, ht, rfl⟩ := exists_part_of_mem_pow h
    rw [List.append_assoc] at heq
    cases k with
    | zero =>
      rw [pow_zero, Language.mem_one] at h'
      subst h'
      exact absurd heq hp.ne_quote
    | succ k =>
      obtain ⟨p', t', u', hp', ht', rfl⟩ := exists_part_of_mem_pow h'
      rw [List.append_assoc] at heq
      exact congrArg (· + 1) (ih ht ht' (hp.append_inj hp' heq).2)

theorem HasUnits.unique (h : HasUnits d n w) (h' : HasUnits d k w) : n = k := by
  obtain ⟨_, hquoted, g, -, rfl⟩ := h
  obtain ⟨_, hquoted', g', -, heq⟩ := h'
  obtain ⟨s, hs, rfl⟩ := mem_quoted.mp hquoted
  obtain ⟨s', hs', rfl⟩ := mem_quoted.mp hquoted'
  have hrest : s ++ '"' :: g = s' ++ '"' :: g' := by simpa using heq.symm
  exact units_unique hs hs' hrest

/-- Where the elements are JSON, so is the array, and it has as many elements. -/
theorem HasElements.isText_iff {l : Language Char} (hl : ∀ t ∈ l, Written (fun _ => True) t) (h : HasElements l n w) :
    ∃ vs : List Value, vs.length = n ∧ ∀ v, IsText w v ↔ v = .array vs := by
  obtain ⟨t, g, _, hv, hg, ⟨vs, rfl, hlen, -⟩, rfl⟩ := h.written hl
  have htext : IsText (t ++ g) (.array vs) := ⟨[], t, g, List.forall_mem_nil _, hv, hg, rfl⟩
  exact ⟨vs, hlen, fun v => ⟨fun h => h.unique htext, fun h => h ▸ htext⟩⟩

end

/-- A text of the shape keeps the bounds that the shape declares: an array its numbers of elements, each of them a text of
the given language, and a string that may hold any characters its lengths. -/
def Shape.KeepsDeclared (settings : GrammarSettings) (item : Language Char) (w : List Char) : Shape → Prop
  | .array _ lo hi _ => Consistent lo hi → ∃ n, KeepsBounds lo hi settings.items n ∧ HasElements item n w ∧
      ((∀ t ∈ item, Written (fun _ => True) t) →
        ∃ vs : List Value, vs.length = n ∧ ∀ v, IsText w v ↔ v = .array vs)
  | .string text => text.Plain → Consistent text.minLength text.maxLength →
      ∃ n, KeepsBounds text.minLength text.maxLength settings.lengths n ∧
        ∀ k, HasUnits settings.delimiters k w ↔ k = n
  | _ => True

variable {settings : GrammarSettings} {body : String → Option Expr} {w : List Char}

theorem keepsDeclared_array (htok : HasTokens settings body) {element : Shape} {lo hi : Option Nat} {name item : String}
    (h : Derives body (arrayExpr item (clampedLimits lo hi settings.items).1 (clampedLimits lo hi settings.items).2) w) :
    (Shape.array element lo hi name).KeepsDeclared settings ((rule item).texts body) w := by
  intro hcons
  rw [← mem_texts, htok.texts_array _ (clampedLimits_le lo hi settings.items), mul_listOf_mul] at h
  obtain ⟨n, hlo, hhi, hw⟩ := h
  exact ⟨n, keepsBounds_of_clamped hcons hlo hhi, hw, fun hl => HasElements.isText_iff hl hw⟩

theorem keepsDeclared_string (htok : HasTokens settings body) {text : StringShape} {item : Language Char}
    (h : Derives body (boundedStringExpr (clampedLimits text.minLength text.maxLength settings.lengths).1
      (clampedLimits text.minLength text.maxLength settings.lengths).2) w) :
    (Shape.string text).KeepsDeclared settings item w := by
  intro hplain hcons
  rw [← mem_texts, htok.texts_boundedString] at h
  obtain ⟨t, ht, g, hg, rfl⟩ := h
  obtain ⟨s, ⟨n, hlo, hhi, hs⟩, rfl⟩ := mem_quoted.mp ht
  have hunits : HasUnits settings.delimiters n (('"' :: (s ++ ['"'])) ++ g) :=
    ⟨_, mem_quoted.mpr ⟨s, hs, rfl⟩, g, hg, rfl⟩
  exact ⟨n, keepsBounds_of_clamped hcons hlo hhi, fun k => ⟨fun h => h.unique hunits, fun h => h ▸ hunits⟩⟩

/-! ### Shapes in a grammar -/

variable {shape : Shape} {table rules : RuleTable} {e read : Expr}

/-- An expression stands for the same by the rules of a grammar and, once both have been read from their texts, by those. -/
theorem derives_read_iff (h : (shape.grammar settings).1 = .ok table) (he : e.InRow)
    (hread : read = e ∧ rules = table ∨ shape.every Shape.hasNoRawFormat = true ∧ readExpr e.chars = some read ∧
      readRules table.render = some rules) : Derives rules.body? read w ↔ Derives table.body? e w := by
  rcases hread with ⟨rfl, rfl⟩ | ⟨hraw, hexpr, hrules⟩
  · rfl
  · rw [readExpr_chars he.1.choice_of_row] at hexpr
    rw [readRules_grammar_of_noRawFormat h hraw] at hrules
    cases hexpr
    cases hrules
    exact RuleTable.derives_canonical

/-- Each array and each string that the compiler comes to has an expression, and the texts that this admits, as it is and as
it is read from the text of the grammar, keep the bounds that the shape declares. -/
theorem declared_limits_kept {s : Shape} {pos : Position} {path : String} {t : RuleTable}
    (h : (shape.grammar settings).1 = .ok table) (hv : Visits settings shape "root" (seedTable settings) pos s path t) :
    ∃ e t', Compiles settings s path t e t' ∧ t'.Extends table ∧ ∀ read rules,
      (read = e ∧ rules = table ∨ shape.every Shape.hasNoRawFormat = true ∧ readExpr e.chars = some read ∧
        readRules table.render = some rules) →
      ∀ w, Derives rules.body? read w → s.KeepsDeclared settings ((rule (itemName path)).texts table.body?) w := by
  have htok : HasTokens settings table.body? := (hasTokens_seedTable settings).extends (seedTable_extends_of_grammar h)
  obtain ⟨e, t', hc, hext⟩ : ∃ e t', Compiles settings s path t e t' ∧ t'.Extends table := by
    obtain ⟨e₀, t₀, hroot, rfl⟩ := exists_compiles_of_grammar h
    obtain ⟨e, t', hc, hext⟩ := hroot.visits hv
    exact ⟨e, t', hc, hext.trans (finishTable_extends e₀ t₀)⟩
  refine ⟨e, t', hc, hext, fun read rules hread w hw => ?_⟩
  cases s with
  | array element lo hi name =>
    obtain rfl : e = arrayExpr (itemName path) (clampedLimits lo hi settings.items).1
        (clampedLimits lo hi settings.items).2 := by
      cases hc <;> rfl
    have hitem : IsName (itemName path) := (IsName.lengthen (by decide) hv.lengthens).item
    exact keepsDeclared_array htok ((derives_read_iff h (inRow_array hitem (clampedLimits_le ..)) hread).mp hw)
  | string text =>
    cases hc with
    | namedString hbody => exact fun hplain => absurd hplain hbody.not_plain
    | plainString => exact keepsDeclared_string htok ((derives_read_iff h (inRow_boundedString (clampedLimits_le ..)) hread).mp hw)
  | scalar | enum | object | custom => trivial

/-- Lines of at least 600 characters: the default maximum of 512 takes the place of the minimum. -/
theorem declared_limits_kept_lines :
    ∃ table, ((Shape.array (.string { minLength := some 600 }) (some 2) none "array").grammar {}).1 = .ok table ∧
      Visits {} (.array (.string { minLength := some 600 }) (some 2) none "array") "root" (seedTable {}) [.element]
        (.string { minLength := some 600 }) "root-item" (seedTable {}) ∧
      ∃ e t', Compiles {} (.string { minLength := some 600 }) "root-item" (seedTable {}) e t' ∧
        ∀ w, Derives table.body? e w → HasUnits {} 512 w := by
  have h : ((Shape.array (.string { minLength := some 600 }) (some 2) none "array").grammar {}).1 =
      .ok (finishTable {} (arrayExpr "root-item" 2 20) ((seedTable {}).push "root-item" (boundedStringExpr 512 512))) := by
    rfl
  have hv : Visits {} (.array (.string { minLength := some 600 }) (some 2) none "array") "root" (seedTable {}) [.element]
      (.string { minLength := some 600 }) "root-item" (seedTable {}) := .element (by decide) .here
  obtain ⟨e, t', hc, -, hkeeps⟩ := declared_limits_kept h hv
  refine ⟨_, h, hv, e, t', hc, fun w hw => ?_⟩
  have hcons : Consistent (some 600) none := fun _ _ _ hb => absurd hb (Option.not_mem_none _)
  obtain ⟨n, hn, hunits⟩ := hkeeps e _ (.inl ⟨rfl, rfl⟩) w hw ⟨rfl, rfl⟩ hcons
  exact (hunits 512).mpr (hn.lowered 600 rfl rfl (by decide)).symm

/-- At least 30 elements are declared, and no greatest number: every text that the grammar admits has 20. -/
theorem declared_minimum_lowered :
    ∃ table, ((Shape.array (.scalar .integer "integer") (some 30) none "array").grammar {}).1 = .ok table ∧
      Consistent (some 30) none ∧ (∃ w, Derives table.body? (rule "root") w) ∧
      ∀ w, Derives table.body? (rule "root") w →
        ∃ vs : List Value, vs.length = 20 ∧ ∀ v, IsText w v ↔ v = .array vs := by
  have h : ((Shape.array (.scalar .integer "integer") (some 30) none "array").grammar {}).1 =
      .ok (finishTable {} (arrayExpr "root-item" 20 20) ((seedTable {}).push "root-item" integerExpr)) := by
    rfl
  let l : Language Char := Scalar.integer.texts * gapTexts
  have hroot : ∀ w, Derives (finishTable {} (arrayExpr "root-item" 20 20)
      ((seedTable {}).push "root-item" integerExpr)).body? (rule "root") w ↔ HasElements l 20 w := by
    intro w
    rw [← mem_texts, texts_root h (by decide) (by decide)]
    refine (mul_listOf_mul _ _ _ _ 20 20).trans
      ⟨fun ⟨n, hlo, hhi, hw⟩ => ?_, fun hw => ⟨20, Nat.le_refl _, Nat.le_refl _, hw⟩⟩
    rwa [Nat.le_antisymm hhi hlo] at hw
  refine ⟨_, h, fun _ _ _ hb => absurd hb (Option.not_mem_none _), ?_, fun w hw => ?_⟩
  · have hzero : ['0'] ∈ l := ⟨['0'], .inl ⟨[], .inl rfl, ['0'], rfl, rfl⟩, [], nil_mem_gapTexts, rfl⟩
    have hmore : [',', '0'] ∈ commaTexts * l := ⟨[','], just_le_token "," rfl, ['0'], hzero, rfl⟩
    have hpow : (List.replicate 19 [',', '0']).flatten ∈ (commaTexts * l) ^ 19 :=
      Language.mem_pow.mpr ⟨_, rfl, List.length_replicate, fun u hu => List.eq_of_mem_replicate hu ▸ hmore⟩
    have hlist : ['0'] ++ (List.replicate 19 [',', '0']).flatten ∈ joined commaTexts (List.replicate 20 l) := by
      rw [joined_replicate_succ]
      exact Language.append_mem_mul hzero hpow
    have hframe := Language.append_mem_mul (Language.append_mem_mul (just_le_token "[" rfl) hlist) (just_le_token "]" rfl)
    exact ⟨_, (hroot _).mpr hframe⟩
  · have hinteger : ∀ t ∈ l, Written (fun _ => True) t := fun t ht =>
      written_of_mul_gap (fun u hu => (Scalar.spells hu).imp fun _ hv => ⟨hv.1, trivial⟩) ht
    exact HasElements.isText_iff hinteger ((hroot w).mp hw)

end RecordGrammar
