import RecordGrammar.Grammar.Token
import RecordGrammar.Proofs.Grammar.ReadBack
import RecordGrammar.Proofs.Json.Strings

/-!
# Texts in literals

A text enters a grammar through one layer of escapes, that of the literals of the grammar, or through two, where the
literal stands for a JSON string of the text. `Reading.literal?` reads one literal from the front of a text;
`literal?_literalText` goes through the outer layer and `spells_literal_iff` through the inner one.
-/

namespace RecordGrammar
namespace Reading

/-- What is left of a literal behind its opening quote: what that stands for, and what comes behind the closing quote. -/
def literalRest? : List Char → Option (List Char × List Char)
  | [] => none
  | '"' :: rest => some ([], rest)
  | '\\' :: l :: rest => (literalEscape? l).bind fun c => (literalRest? rest).map fun r => (c :: r.1, r.2)
  | c :: rest => (literalRest? rest).map fun r => (c :: r.1, r.2)

/-- The literal that a text begins with: what it stands for, and what comes behind it. -/
def literal? : List Char → Option (List Char × List Char)
  | '"' :: rest => literalRest? rest
  | _ => none

theorem literalRest?_cons {c : Char} (hquote : c ≠ '"') (hmark : c ≠ '\\') (cs : List Char) :
    literalRest? (c :: cs) = (literalRest? cs).map fun r => (c :: r.1, r.2) := by
  rw [literalRest?]
  · exact hquote
  · intro l rest h _
    exact hmark h

/-- An escaped character is read as the character. -/
theorem literalRest?_escapeInLiteral (c : Char) (cs : List Char) :
    literalRest? (escapeInLiteral c ++ cs) = (literalRest? cs).map fun r => (c :: r.1, r.2) := by
  by_cases hmark : c = '\\'
  · subst hmark; rfl
  by_cases hquote : c = '"'
  · subst hquote; rfl
  by_cases hbreak : c = '\n'
  · subst hbreak; rfl
  by_cases hreturn : c = '\r'
  · subst hreturn; rfl
  by_cases htab : c = '\t'
  · subst htab; rfl
  simp [escapeInLiteral, hmark, hquote, hbreak, hreturn, htab, literalRest?_cons]

/-- A literal is read whole, whatever comes behind it. -/
theorem literal?_literalText (s rest : List Char) : literal? (literalText s ++ rest) = some (s, rest) := by
  show literalRest? (s.flatMap escapeInLiteral ++ ['"'] ++ rest) = some (s, rest)
  induction s with
  | nil => rfl
  | cons c s ih =>
    rw [List.flatMap_cons, List.append_assoc, List.append_assoc, literalRest?_escapeInLiteral, ← List.append_assoc, ih]
    rfl

theorem literalText_inj {s t : List Char} : literalText s = literalText t ↔ s = t := by
  constructor
  · intro h
    have hs := literal?_literalText s []
    rw [h, literal?_literalText] at hs
    simpa using hs.symm
  · rintro rfl
    rfl

end Reading

/-! ### Escaping in several passes -/

/-- The text with another text in place of each occurrence of a character. -/
def replaceEach (s : List Char) (r : Char × List Char) : List Char := s.flatMap fun c => if c = r.1 then r.2 else [c]

/-- What is replaced in a literal, in this order: the backslash has to come before the escapes that bring in new ones. -/
def literalReplacements : List (Char × List Char) :=
  [('\\', ['\\', '\\']), ('"', ['\\', '"']), ('\n', ['\\', 'n']), ('\r', ['\\', 'r']), ('\t', ['\\', 't'])]

theorem foldl_replaceEach_flatMap (rs : List (Char × List Char)) (s : List Char) :
    rs.foldl replaceEach s = s.flatMap fun c => rs.foldl replaceEach [c] := by
  induction rs generalizing s with
  | nil => simp
  | cons r rs ih =>
    simp only [List.foldl_cons]
    rw [ih, replaceEach, List.flatMap_assoc]
    congr 1
    funext c
    rw [ih (replaceEach [c] r), replaceEach, List.flatMap_singleton]

/-- Replacing one character after the other in the whole text comes to the same as escaping each character. -/
theorem flatMap_escapeInLiteral (s : List Char) : s.flatMap escapeInLiteral = literalReplacements.foldl replaceEach s := by
  rw [foldl_replaceEach_flatMap]
  congr 1
  funext c
  rw [escapeInLiteral]
  split_ifs with hmark hquote hbreak hreturn htab
  · subst hmark; rfl
  · subst hquote; rfl
  · subst hbreak; rfl
  · subst hreturn; rfl
  · subst htab; rfl
  · simp [literalReplacements, replaceEach, hmark, hquote, hbreak, hreturn, htab]

/-! ### JSON strings in literals -/

namespace JsonText

/-- The literal of a text spells nothing else. -/
theorem spells_literal_iff {s : String} {v : Value} : Spells (Json.literal s).toList v ↔ v = .string (utf16 s) := by
  constructor
  · intro h
    exact (h.unique (spells_literal s) .nil .nil rfl).2
  · rintro rfl
    exact spells_literal s

theorem literal_inj {s t : String} (h : Json.literal s = Json.literal t) : s = t := by
  have hs := spells_literal s
  rw [h, spells_literal_iff] at hs
  exact utf16_inj (Value.string.inj hs)

end JsonText

theorem jsonText_chars_inj {s t : String} : (Expr.jsonText s).chars = (Expr.jsonText t).chars ↔ s = t := by
  constructor
  · intro h
    exact JsonText.literal_inj (String.toList_inj.mp (Reading.literalText_inj.mp h))
  · rintro rfl
    rfl

/-- A literal goes back to its text through both layers. The outer one keeps it on its line and is what replacing the
characters one after the other gives; the inner one is a JSON string of that text alone. -/
theorem quoted_texts_round_trip (s t : String) (rest : List Char) :
    (Reading.literal? ((Expr.literal s).chars ++ rest) = some (s.toList, rest) ∧
      (Expr.literal s).chars = '"' :: literalReplacements.foldl replaceEach s.toList ++ ['"'] ∧
      '\n' ∉ (Expr.literal s).chars ∧ '\r' ∉ (Expr.literal s).chars ∧ '\t' ∉ (Expr.literal s).chars) ∧
    (∃ w, Reading.literal? ((Expr.jsonText s).chars ++ rest) = some (w, rest) ∧
      (∀ v, JsonText.Spells w v ↔ v = .string (JsonText.utf16 s)) ∧
      ∀ u, JsonText.Spells w (.string (JsonText.utf16 u)) ↔ u = s) ∧
    ((Expr.jsonText s).chars = (Expr.jsonText t).chars ↔ s = t) := by
  have hbreak {x : Char} (hx : x ∈ ['\n', '\r', '\t']) (hx' : x ∉ ['"', '\\', 'n', 'r', 't']) :
      x ∉ (Expr.literal s).chars := by
    intro h
    exact ((mem_literalText_iff hx').mp h).2 hx
  refine ⟨⟨Reading.literal?_literalText _ rest, ?_, hbreak (by decide) (by decide), hbreak (by decide) (by decide),
    hbreak (by decide) (by decide)⟩, ?_, jsonText_chars_inj⟩
  · rw [Expr.chars, literalText, flatMap_escapeInLiteral]
  · refine ⟨_, Reading.literal?_literalText _ rest, fun v => JsonText.spells_literal_iff, fun u => ?_⟩
    rw [JsonText.spells_literal_iff]
    constructor
    · intro h
      exact JsonText.utf16_inj (JsonText.Value.string.inj h)
    · rintro rfl
      rfl

end RecordGrammar
