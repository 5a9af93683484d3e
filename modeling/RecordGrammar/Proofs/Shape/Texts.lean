import RecordGrammar.Proofs.Grammar.Run
import RecordGrammar.Proofs.Text.Language
import RecordGrammar.Text.Rest

/-!
# The texts of a shape

`Shape.texts settings s`: the JSON texts that a shape stands for, by recursion on the shape and without a grammar. Every
value takes the white space behind it along. The text of a raw format is not looked into: such a string has
no texts here.
-/

namespace RecordGrammar

/-- White space behind a token: nothing, a blank, or a line break and at most twenty blanks and tabs. -/
def gapTexts : Language Char := 1 + just " " + just "\n" * runs (oneChar fun c => c = ' ' ∨ c = '\t') 0 20

/-- A token and the white space behind it. -/
def token (s : String) : Language Char := just s * gapTexts

theorem gapTexts_mem_madeOf {p : Char → Bool} (hblank : p ' ' = true) (htab : p '\t' = true) (hbreak : p '\n' = true) :
    gapTexts ∈ madeOf p := by
  have hruns : runs (oneChar fun c => c = ' ' ∨ c = '\t') 0 20 ∈ madeOf p :=
    runs_mem_within (oneChar_mem_madeOf (by rintro c (rfl | rfl) <;> assumption))
  refine add_mem (add_mem (one_mem _) (just_mem_madeOf ?_)) (mul_mem (just_mem_madeOf ?_) hruns)
  · exact List.all_eq_true.mpr fun c hc => List.mem_singleton.mp hc ▸ hblank
  · exact List.all_eq_true.mpr fun c hc => List.mem_singleton.mp hc ▸ hbreak

theorem one_le_gapTexts : 1 ≤ gapTexts := by
  rw [gapTexts, add_assoc]
  exact le_self_add

theorem nil_mem_gapTexts : [] ∈ gapTexts := one_le_gapTexts Language.nil_mem_one

theorem just_le_token (s : String) : just s ≤ token s := le_mul_of_one_le_right' one_le_gapTexts

def commaTexts : Language Char := token ","

/-- A text of the language in quotes. -/
def quoted (l : Language Char) : Language Char := just "\"" * l * just "\""

theorem mem_quoted {l : Language Char} {w : List Char} : w ∈ quoted l ↔ ∃ s ∈ l, w = '"' :: (s ++ ['"']) := by
  constructor
  · rintro ⟨_, ⟨_, rfl, s, hs, rfl⟩, _, rfl, rfl⟩
    exact ⟨s, hs, rfl⟩
  · rintro ⟨s, hs, rfl⟩
    exact ⟨_, ⟨_, rfl, s, hs, rfl⟩, _, rfl, rfl⟩

/-- The JSON string of one of the values. -/
def literalsOf (values : List String) : Language Char := {w | ∃ v ∈ values, w = (Json.literal v).toList}

theorem mem_literalsOf {values : List String} {w : List Char} :
    w ∈ literalsOf values ↔ ∃ v ∈ values, w = (Json.literal v).toList := Iff.rfl

def digitTexts : Language Char := digitOf 0 9

/-- A digit in base sixteen, in either case. -/
def hexTexts : Language Char := oneChar fun c => Text.isHexDigit c = true

/-- A character of a JSON string that is not fixed: neither a quote, a backslash nor a delimiter, and no control
character, or else one of the escapes. -/
def charTexts (d : Delimiters) : Language Char :=
  oneChar (fun c => c ≠ '"' ∧ c ≠ '\\' ∧ c ≠ '\x7f' ∧ 0x20 ≤ c.toNat ∧ c ≠ d.opening ∧ c ≠ d.closing) +
    just "\\" * (oneChar (· ∈ ['"', '\\', 'b', 'f', 'n', 'r', 't']) + just "u" * hexTexts ^ 4)

/-! ### Scalars -/

def clockTexts : Language Char := numberOf 0 23 * just ":" * numberOf 0 59

/-- A date and time of day with its offset. -/
def dateTexts : Language Char :=
  digitTexts ^ 4 * just "-" * numberOf 1 12 * just "-" * numberOf 1 31 * just "T" *
    clockTexts * just ":" * numberOf 0 59 * (1 + just "." * digitTexts ^ 3) *
    (just "Z" + oneChar (fun c => c = '+' ∨ c = '-') * clockTexts)

def guidTexts : Language Char :=
  hexTexts ^ 8 * just "-" * hexTexts ^ 4 * just "-" * hexTexts ^ 4 * just "-" * hexTexts ^ 4 * just "-" * hexTexts ^ 12

def Scalar.texts : Scalar → Language Char
  | integer => (1 + just "-") * just "0" + digitOf 1 9 * runs digitTexts 0 15
  | decimal =>
    (1 + just "-") * (just "0" + digitOf 1 9 * runs digitTexts 0 15) * (1 + just "." * runs digitTexts 1 15)
  | boolean => just "true" + just "false"
  | date => quoted dateTexts
  | guid => quoted guidTexts

/-! ### Strings -/

/-- Whether a string of the format may hold the character. -/
def NamedFormat.Holds : NamedFormat → Char → Prop
  | alpha, c => c.isAlpha
  | alphaSpace, c => c.isAlpha ∨ c = ' '
  | alphanumeric, c => c.isAlphanum
  | lowercase, c => c.isLower
  | uppercase, c => c.isUpper
  | numeric, c => c.isDigit
  | hex, c => Text.isHexDigit c

/-- What a character of a pattern stands for. -/
def patternTexts (d : Delimiters) : Char → Language Char
  | '#' | '9' => digitTexts
  | 'A' => oneChar (·.isUpper)
  | 'a' => oneChar (·.isLower)
  | '*' => oneChar (·.isAlphanum)
  | '?' => charTexts d
  | c => just (String.singleton c)

/-- What stands between the quotes of a string of the format. -/
def StringFormat.texts (settings : GrammarSettings) : StringFormat → Language Char
  | raw _ => 0
  | named f => someRuns (oneChar f.Holds)
  | pattern s => (s.toList.map (patternTexts settings.delimiters)).prod
  | unknown _ => runs (charTexts settings.delimiters) settings.lengths.min settings.lengths.max

/-- The texts of a string: one of its values, or what its format says, or any characters within its bounds. -/
def StringShape.texts (settings : GrammarSettings) (text : StringShape) : Language Char :=
  if text.allowed ≠ [] then literalsOf text.allowed
  else match text.activeFormat? with
    | some f => quoted (f.texts settings)
    | none =>
      let limits := clampedLimits text.minLength text.maxLength settings.lengths
      quoted (runs (charTexts settings.delimiters) limits.1 limits.2)

/-! ### Shapes -/

mutual

def Shape.texts (settings : GrammarSettings) : Shape → Language Char
  | .string text => text.texts settings * gapTexts
  | .scalar kind _ => kind.texts * gapTexts
  | .enum _ values => literalsOf values * gapTexts
  | .array element lo hi _ =>
    let limits := clampedLimits lo hi settings.items
    token "[" * listOf commaTexts (element.texts settings) limits.1 limits.2 * token "]"
  | .object _ fields => token "\x7b" * joined commaTexts (Shape.fieldTexts settings fields) * token "\x7d"
  | .custom _ => 0

/-- The texts of each field: its name, a colon and its value. -/
def Shape.fieldTexts (settings : GrammarSettings) : List (Field Shape) → List (Language Char)
  | [] => []
  | ⟨name, type, _⟩ :: rest =>
    token (Json.literal name) * token ":" * type.texts settings :: Shape.fieldTexts settings rest

end

end RecordGrammar
