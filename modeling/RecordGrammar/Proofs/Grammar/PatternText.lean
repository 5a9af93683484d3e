import RecordGrammar.Proofs.Grammar.Order
import RecordGrammar.Proofs.Json.Strings

/-!
# Which strings a pattern admits

A pattern asks for one character or escape of a JSON string at each of its places (`Follows`). Where all of its characters
may stand in a string as they are, each text that its expression admits is such a string. Where one may not, there is
a text that is none (`pattern_admits_strings_iff`): with one character for each placeholder it has as many
characters as the pattern, so each of them would have to stand for itself.
-/

namespace RecordGrammar
open RecordGrammar.Expr Reading JsonText

theorem Text.dropEndWhile_append {p : Char → Bool} {c : Char} {g : List Char} (a : List Char) (hc : p c = false)
    (hg : ∀ x ∈ g, p x = true) : Text.dropEndWhile p (a ++ c :: g) = a ++ [c] := by
  have hback : ∀ x ∈ g.reverse, p x = true := fun x hx => hg x (List.mem_reverse.mp hx)
  simp [Text.dropEndWhile, List.dropWhile_append_of_pos hback, hc]

namespace JsonText
variable {d : Delimiters} {c : Char} {cs s : List Char} {u : List Nat}

theorem Part.length_pos (h : Part s u) : 1 ≤ s.length := by
  cases h <;> simp

theorem Part.isPlain_of_length (h : Part s u) (hlen : s.length = 1) : ∀ x ∈ s, isPlain x = true := by
  cases h with
  | plain hc => simpa using hc
  | escape => simp at hlen
  | unit hds => simp [hds] at hlen

/-- The text has for each character of the pattern, in turn, a character or escape that fits it. -/
inductive Follows (d : Delimiters) : List Char → List Char → List Nat → Prop where
  | nil : Follows d [] [] []
  | cons {c : Char} {cs s t : List Char} {u v : List Nat} (hpart : Part s u) (hfits : Fits d c s u) (h : Follows d cs t v) :
    Follows d (c :: cs) (s ++ t) (u ++ v)

namespace Follows

theorem chars (h : Follows d cs s u) : Chars s u := by
  induction h with
  | nil => exact .nil
  | cons hpart _ _ ih => exact hpart.chars.append ih

theorem length_le (h : Follows d cs s u) : cs.length ≤ s.length := by
  induction h with
  | nil => exact Nat.le_refl 0
  | cons hpart _ _ ih =>
    have := hpart.length_pos
    rw [List.length_cons, List.length_append]
    omega

theorem isPlain (h : Follows d cs s u) (hlen : s.length = cs.length) : ∀ x ∈ s, isPlain x = true := by
  induction h with
  | nil => exact fun x hx => absurd hx List.not_mem_nil
  | cons hpart _ h ih =>
    have hpos := hpart.length_pos
    have hle := h.length_le
    rw [List.length_cons, List.length_append] at hlen
    intro x hx
    rcases List.mem_append.mp hx with hx | hx
    · exact hpart.isPlain_of_length (by omega) x hx
    · exact ih (by omega) x hx

theorem of_mem (hplain : ∀ c ∈ cs, JsonText.isPlain c = true) (h : s ∈ (cs.map (patternTexts d)).prod) :
    ∃ u, Follows d cs s u := by
  induction cs generalizing s with
  | nil =>
    rw [List.map_nil, List.prod_nil, Language.mem_one] at h
    subst h
    exact ⟨[], .nil⟩
  | cons c cs ih =>
    rw [List.map_cons, List.prod_cons] at h
    obtain ⟨a, ha, b, hb, rfl⟩ := h
    obtain ⟨hc, hcs⟩ := List.forall_mem_cons.mp hplain
    obtain ⟨u, hpart, hfits⟩ := exists_part_of_mem_patternTexts hc ha
    obtain ⟨v, hv⟩ := ih hcs hb
    exact ⟨u ++ v, .cons hpart hfits hv⟩

end Follows

/-- A JSON string whose characters and escapes follow the pattern. -/
def IsPatternString (d : Delimiters) (p : String) (w : List Char) : Prop :=
  ∃ s u, w = '"' :: (s ++ ['"']) ∧ Spells w (.string u) ∧ Follows d p.toList s u

/-! ### One character for each place -/

theorem exists_char_of_charTexts (d : Delimiters) : ∃ x, [x] ∈ charTexts d := by
  have hclass : ∀ x ∈ ['0', '1', '2'], x ≠ '"' ∧ x ≠ '\\' ∧ x ≠ '\x7f' ∧ 0x20 ≤ x.toNat := by simp
  -- two delimiters are not three characters
  obtain ⟨x, hx, hd⟩ : ∃ x ∈ ['0', '1', '2'], x ∉ [d.opening, d.closing] := by
    by_contra hnone
    have hsub : ['0', '1', '2'] ⊆ [d.opening, d.closing] := fun x hx => by
      by_contra hd
      exact hnone ⟨x, hx, hd⟩
    have hle := (List.subperm_of_subset (by decide) hsub).length_le
    exact absurd hle (by simp)
  obtain ⟨hquote, hback, hdel, hspace⟩ := hclass x hx
  rw [List.mem_cons, List.mem_singleton, not_or] at hd
  exact ⟨x, .inl ⟨x, ⟨hquote, hback, hdel, hspace, hd⟩, rfl⟩⟩

/-- One character takes each place of a pattern: a fixed character takes its own, and no placeholder has to be escaped. -/
theorem exists_char_of_patternTexts (d : Delimiters) (c : Char) :
    ∃ x, [x] ∈ patternTexts d c ∧ (isPlain x = true → isPlain c = true) := by
  unfold patternTexts
  split
  · exact ⟨'0', mem_digitOf.mpr ⟨0, by decide, by decide, rfl⟩, fun _ => by decide⟩
  · exact ⟨'0', mem_digitOf.mpr ⟨0, by decide, by decide, rfl⟩, fun _ => by decide⟩
  · exact ⟨'A', ⟨'A', by decide, rfl⟩, fun _ => by decide⟩
  · exact ⟨'a', ⟨'a', by decide, rfl⟩, fun _ => by decide⟩
  · exact ⟨'a', ⟨'a', by decide, rfl⟩, fun _ => by decide⟩
  · obtain ⟨x, hx⟩ := exists_char_of_charTexts d
    exact ⟨x, hx, fun _ => by decide⟩
  · exact ⟨c, by rw [mem_just, String.toList_singleton], id⟩

theorem exists_chars_of_patternTexts (d : Delimiters) (cs : List Char) :
    ∃ s ∈ (cs.map (patternTexts d)).prod, s.length = cs.length ∧
      ((∀ x ∈ s, isPlain x = true) → ∀ c ∈ cs, isPlain c = true) := by
  induction cs with
  | nil => exact ⟨[], rfl, rfl, fun h => h⟩
  | cons c cs ih =>
    obtain ⟨x, hx, hc⟩ := exists_char_of_patternTexts d c
    obtain ⟨s, hs, hlen, hcs⟩ := ih
    rw [List.map_cons, List.prod_cons]
    refine ⟨x :: s, Language.append_mem_mul hx hs, congrArg (· + 1) hlen, fun hplain => ?_⟩
    obtain ⟨hxplain, hsplain⟩ := List.forall_mem_cons.mp hplain
    exact List.forall_mem_cons.mpr ⟨hc hxplain, hcs hsplain⟩

end JsonText

/-! ### The texts of a pattern -/

variable {settings : GrammarSettings} {p : String} {w : List Char}

theorem derives_pattern_iff {table rules : RuleTable} {read : Expr} (hext : (seedTable settings).Extends table)
    (hread : read = patternExpr p ∧ rules = table ∨
      readExpr (patternExpr p).chars = some read ∧ readRules table.render = some rules) :
    Derives rules.body? read w ↔ w ∈ quoted ((p.toList.map (patternTexts settings.delimiters)).prod) * gapTexts := by
  rw [readExpr_chars (inRow_pattern p).1.choice_of_row, Option.some_inj] at hread
  have hnames := List.Subset.trans (ruleNames_pattern p) (tokenNames_subset_seedTable settings)
  rw [← (hasTokens_seedTable settings).texts_pattern, mem_texts]
  exact derives_seedTable_iff hext hnames (hread.imp id fun h => ⟨h.1.symm, h.2⟩)

theorem dropEndWhile_quoted (s : List Char) {g : List Char} (hg : g ∈ gapTexts) :
    Text.dropEndWhile Text.isBlank ('"' :: (s ++ ['"']) ++ g) = '"' :: (s ++ ['"']) := by
  have hgap : gapTexts ∈ madeOf Text.isBlank := gapTexts_mem_madeOf rfl rfl rfl
  simpa using Text.dropEndWhile_append ('"' :: s) (show Text.isBlank '"' = false from rfl) (hgap g hg)

/-- A format that is a pattern has an expression, and all that it admits, as it is and as it is read from its text, are
strings that follow the pattern, up to the white space behind them, just if each character of the pattern stands for
itself in a JSON string. -/
theorem pattern_admits_strings_iff (hp : StringFormat.ofString p = .pattern p) :
    ∃ e, (StringFormat.ofString p).compile settings = .ok (e, []) ∧ readExpr e.chars = some e.canonical ∧
      ∀ table rules read, (seedTable settings).Extends table →
        read = e ∧ rules = table ∨ readExpr e.chars = some read ∧ readRules table.render = some rules →
        ((∀ w, Derives rules.body? read w →
            IsPatternString settings.delimiters p (Text.dropEndWhile Text.isBlank w)) ↔
          ∀ c ∈ p.toList, isPlain c = true) := by
  rw [hp]
  refine ⟨patternExpr p, rfl, readExpr_chars (inRow_pattern p).1.choice_of_row, fun table rules read hext hread => ?_⟩
  constructor
  · intro hall
    obtain ⟨s, hs, hlen, hplain⟩ := exists_chars_of_patternTexts settings.delimiters p.toList
    have hw := (derives_pattern_iff hext hread).mpr
      (Language.append_mem_mul (mem_quoted.mpr ⟨s, hs, rfl⟩) nil_mem_gapTexts)
    obtain ⟨s', u, heq, -, hfollows⟩ := hall _ hw
    rw [dropEndWhile_quoted s nil_mem_gapTexts] at heq
    obtain rfl : s = s' := List.append_cancel_right (List.cons.inj heq).2
    exact hplain (hfollows.isPlain hlen)
  · intro hplain w hw
    obtain ⟨t, ht, g, hg, rfl⟩ := (derives_pattern_iff hext hread).mp hw
    obtain ⟨s, hs, rfl⟩ := mem_quoted.mp ht
    obtain ⟨u, hfollows⟩ := Follows.of_mem hplain hs
    exact ⟨s, u, dropEndWhile_quoted s hg, by rw [dropEndWhile_quoted s hg]; exact .string hfollows.chars, hfollows⟩

theorem pattern_admits_strings_iff_plate : StringFormat.ofString "A-9?" = .pattern "A-9?" ∧
    ∀ w, Derives (seedTable {}).body? (patternExpr "A-9?") w →
      IsPatternString {} "A-9?" (Text.dropEndWhile Text.isBlank w) := by
  have hp : StringFormat.ofString "A-9?" = .pattern "A-9?" := by decide
  obtain ⟨e, he, -, hiff⟩ := @pattern_admits_strings_iff {} "A-9?" hp
  rw [hp] at he
  cases he
  exact ⟨hp, (hiff (seedTable {}) _ _ (.refl _) (.inl ⟨rfl, rfl⟩)).mpr (List.all_eq_true.mp (by decide))⟩

/-- A quote in a pattern ends the string before the text ends. -/
theorem pattern_admits_no_string : ∃ e, StringFormat.ofString "\"#" = .pattern "\"#" ∧
    (StringFormat.ofString "\"#").compile {} = .ok (e, []) ∧
    Derives (seedTable {}).body? e ['"', '"', '5', '"'] ∧
    ¬ ∃ v, Spells (Text.dropEndWhile Text.isBlank ['"', '"', '5', '"']) v := by
  have hp : StringFormat.ofString "\"#" = .pattern "\"#" := by decide
  refine ⟨patternExpr "\"#", hp, by rw [hp]; rfl, ?_, ?_⟩
  · have hdigit : ['5'] ∈ digitTexts := mem_digitOf.mpr ⟨5, by decide, by decide, rfl⟩
    have hchars : ['"', '5'] ∈ ("\"#".toList.map (patternTexts (GrammarSettings.delimiters {}))).prod :=
      ⟨['"'], rfl, ['5'], ⟨['5'], hdigit, [], rfl, rfl⟩, rfl⟩
    exact (derives_pattern_iff (.refl _) (.inl ⟨rfl, rfl⟩)).mpr
      ⟨_, mem_quoted.mpr ⟨_, hchars, rfl⟩, [], nil_mem_gapTexts, rfl⟩
  · rintro ⟨v, hv⟩
    rw [show Text.dropEndWhile Text.isBlank ['"', '"', '5', '"'] = ['"', '"', '5', '"'] by decide] at hv
    obtain ⟨s, u, hs, ht⟩ := hv.chars_of_quote
    -- the string is over at its second quote
    obtain ⟨rfl, -⟩ := hs.unique .nil (show s ++ '"' :: [] = [] ++ '"' :: ['5', '"'] from ht.symm)
    exact absurd ht (by decide)

end RecordGrammar
