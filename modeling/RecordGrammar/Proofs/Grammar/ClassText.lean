import RecordGrammar.Proofs.Grammar.FirstRules
import RecordGrammar.Proofs.Grammar.ThinkingBlock

/-!
# Classes around characters of the user

The delimiters of placeholders and the characters of the end marker stand in the middle of a class, next to an escape and a
range. `class_texts_read`: whatever these characters are, the text of the class is read strictly, and what is read
admits just the characters that it is meant to.
-/

namespace RecordGrammar
open Reading

/-- A character of a string is a plain character, a short escape or an escape of four digits. -/
theorem mem_charTexts {d : Delimiters} {w : List Char} :
    w ∈ charTexts d ↔
      (∃ c : Char, w = [c] ∧ c ≠ '"' ∧ c ≠ '\\' ∧ c ≠ '\x7f' ∧ 0x20 ≤ c.toNat ∧ c ≠ d.opening ∧ c ≠ d.closing) ∨
      (∃ l ∈ ['"', '\\', 'b', 'f', 'n', 'r', 't'], w = ['\\', l]) ∨
      ∃ ds : List Char, ds.length = 4 ∧ (∀ x ∈ ds, Text.isHexDigit x = true) ∧ w = '\\' :: 'u' :: ds := by
  have hplain : w ∈ oneChar (fun c => c ≠ '"' ∧ c ≠ '\\' ∧ c ≠ '\x7f' ∧ 0x20 ≤ c.toNat ∧ c ≠ d.opening ∧ c ≠ d.closing) ↔
      ∃ c : Char, w = [c] ∧ c ≠ '"' ∧ c ≠ '\\' ∧ c ≠ '\x7f' ∧ 0x20 ≤ c.toNat ∧ c ≠ d.opening ∧ c ≠ d.closing := by
    rw [mem_oneChar]
    exact exists_congr fun c => and_comm
  rw [charTexts, Language.mem_add, hplain, mem_just_mul]
  refine or_congr_right ?_
  constructor
  · rintro ⟨v, hv, rfl⟩
    rcases (Language.mem_add _ _ v).mp hv with ⟨l, hl, rfl⟩ | hv
    · exact .inl ⟨l, hl, rfl⟩
    · obtain ⟨ds, hds, rfl⟩ := mem_just_mul.mp hv
      obtain ⟨hlength, hhex⟩ := mem_oneChar_pow_iff.mp hds
      exact .inr ⟨ds, hlength, hhex, rfl⟩
  · rintro (⟨l, hl, rfl⟩ | ⟨ds, hlength, hhex, rfl⟩)
    · exact ⟨[l], .inl ⟨l, hl, rfl⟩, rfl⟩
    · exact ⟨'u' :: ds, .inr (mem_just_mul.mpr ⟨ds, mem_oneChar_pow_iff.mpr ⟨hlength, hhex⟩, rfl⟩), rfl⟩

namespace Expr
variable {e : Expr} {w : List Char}

/-- An expression without names means the same with any rules. -/
theorem Derives.of_ruleNames_nil {body body' : String → Option Expr} (he : e.ruleNames = []) (h : Derives body e w) :
    Derives body' e w := by
  -- the rules need to agree on no name at all
  have hnone : ∀ n ∈ e.ruleNames, False := by
    intro n hn
    rw [he] at hn
    cases hn
  exact Derives.congr (fun _ hn => False.elim hn) (fun _ _ hn => False.elim hn) hnone h

/-- What is read from the text of an expression without names means the same as the expression. -/
theorem derives_read_iff_of_ruleNames_nil (h : e.Readable .choice) (he : e.ruleNames = []) :
    ∃ read, readStrictly e.chars = some read ∧ ∀ rules w, Derives rules read w ↔ w ∈ e.texts rules := by
  refine ⟨e.canonical, readStrictly_chars h, fun rules w => ?_⟩
  rw [mem_texts, ← derives_canonical (e := e)]
  have hnames : e.canonical.ruleNames = [] := by rw [ruleNames_canonical, he]
  exact ⟨.of_ruleNames_nil hnames, .of_ruleNames_nil hnames⟩

end Expr

/-- Read with the escapes that classes have, the body of `char` stands for the characters of strings between the two
delimiters, and the class that leaves an end marker at a character for the others but `<`. -/
theorem class_texts_read (d : Delimiters) (x : Char) :
    (∃ e, readStrictly (charBody d).chars = some e ∧ ∀ rules w, Expr.Derives rules e w ↔
      (∃ c : Char, w = [c] ∧ c ≠ '"' ∧ c ≠ '\\' ∧ c ≠ '\x7f' ∧ 0x20 ≤ c.toNat ∧ c ≠ d.opening ∧ c ≠ d.closing) ∨
      (∃ l ∈ ['"', '\\', 'b', 'f', 'n', 'r', 't'], w = ['\\', l]) ∨
      ∃ ds : List Char, ds.length = 4 ∧ (∀ x ∈ ds, Text.isHexDigit x = true) ∧ w = '\\' :: 'u' :: ds) ∧
    ∃ e, readStrictly (leaveMarker x).chars = some e ∧ ∀ rules w, Expr.Derives rules e w ↔
      ∃ c, w = [c] ∧ c ≠ x ∧ c ≠ '<' := by
  constructor
  · obtain ⟨e, hread, he⟩ := Expr.derives_read_iff_of_ruleNames_nil (Expr.readable_charBody d) rfl
    refine ⟨e, hread, fun rules w => ?_⟩
    rw [he, Expr.texts_charBody, mem_charTexts]
  · obtain ⟨e, hread, he⟩ := Expr.derives_read_iff_of_ruleNames_nil (e := leaveMarker x) (Expr.readsBack_noneOf [x, '<']) rfl
    refine ⟨e, hread, fun rules w => ?_⟩
    rw [he, mem_leaveMarker]
    refine exists_congr fun c => ?_
    rw [List.mem_cons, List.mem_singleton, not_or, and_comm]

end RecordGrammar
