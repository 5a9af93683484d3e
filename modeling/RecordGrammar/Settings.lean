import RecordGrammar.Text.Blank
import RecordGrammar.Text.Quoted

/-!
# Settings of the two compilers

Options are what a user asks for; settings are options that passed the checks. What the checks
ensure is part of the types of the settings, so the compilers can rely on it.
-/

namespace RecordGrammar

inductive SettingsError where
  | delimiterLength (opening closing : String)
  | equalDelimiters (delimiter : String)
  | negativeBound (label : String) (min max : Int)
  | reversedBounds (label : String) (min max : Int)
  | negativeThinkingLength (length : Int)
  | emptyThinkingStart
  | thinkingEnd (marker : String)
  | endMarker (marker : String)
  | indentNotBlank (indent : String)
deriving DecidableEq

def SettingsError.message : SettingsError → String
  | delimiterLength opening closing =>
    "Delimiters must be single characters, got " ++ Text.quoted opening ++ " and " ++ Text.quoted closing
  | equalDelimiters delimiter =>
    "Opening and closing delimiters must differ, got " ++ Text.quoted delimiter
  | negativeBound label min max => s!"{label} bounds must be non-negative, got {min}..{max}"
  | reversedBounds label min max => s!"{label} minimum ({min}) exceeds maximum ({max})"
  | negativeThinkingLength length => s!"max_thinking_length must be non-negative, got {length}"
  | emptyThinkingStart => "thinking_start must not be empty"
  | thinkingEnd marker =>
    "thinking_end must start with '<', contain no other '<' and have at least two characters, got "
      ++ Text.quoted marker
  | endMarker marker => "End marker must start with its only '<': " ++ Text.quoted marker
  | indentNotBlank indent => "indent must be whitespace, got " ++ Text.quoted indent

structure Delimiters where
  opening : Char := '⟨'
  closing : Char := '⟩'
  opening_ne_closing : opening ≠ closing := by decide
deriving DecidableEq

/-- A range of lengths or counts, its ends included. -/
structure Limits where
  min : Nat
  max : Nat
  min_le_max : min ≤ max := by decide
deriving DecidableEq

/-- A marker that ends a thinking block: its first character is `<`, the tail has at least one
character, and none of them is `<`. -/
structure EndMarker where
  tail : List Char
  tail_ne_nil : tail ≠ [] := by decide
  lt_not_mem : '<' ∉ tail := by decide
deriving DecidableEq

namespace EndMarker

def text (m : EndMarker) : String := String.ofList ('<' :: m.tail)

/-- The marker that a text is, if it is one. -/
def ofString? (s : String) : Option EndMarker :=
  match s.toList with
  | '<' :: tail => if h : tail ≠ [] ∧ '<' ∉ tail then some ⟨tail, h.1, h.2⟩ else none
  | _ => none

def ofString (s : String) : Except SettingsError EndMarker :=
  match ofString? s with
  | some m => .ok m
  | none => .error (.endMarker s)

end EndMarker

/-- What a user asks of the grammar compiler. -/
structure GrammarOptions where
  /-- The least length of a string that has no bound of its own. -/
  defaultMinLength : Int := 1
  /-- The greatest length of a string that has no bound of its own. -/
  defaultMaxLength : Int := 512
  /-- The least number of elements of an array that has no bound of its own. -/
  defaultMinItems : Int := 0
  /-- The greatest number of elements of an array that has no bound of its own. -/
  defaultMaxItems : Int := 20
  /-- The delimiters, which no string of the grammar may hold. -/
  openingDelimiter : String := "⟨"
  closingDelimiter : String := "⟩"
  /-- Whether free text may stand before the value. -/
  includeThinking : Bool := false
  /-- The greatest number of units of that text. -/
  maxThinkingLength : Int := 1024
  thinkingStart : String := "<think>"
  thinkingEnd : String := "</think>"
  /-- Whether a string format that means nothing is an error. -/
  strictFormats : Bool := false
  /-- Whether reversed bounds on a number of elements are mended; otherwise they are an error. -/
  clampArrayBounds : Bool := true
deriving DecidableEq

structure GrammarSettings where
  /-- The lengths of a string that has no bounds of its own. -/
  lengths : Limits := { min := 1, max := 512 }
  /-- The numbers of elements of an array that has no bounds of its own. -/
  items : Limits := { min := 0, max := 20 }
  /-- The delimiters, which no string of the grammar may hold. -/
  delimiters : Delimiters := {}
  /-- Whether free text may stand before the value. -/
  includeThinking : Bool := false
  /-- The greatest number of units of that text. -/
  maxThinkingLength : Nat := 1024
  thinkingStart : String := "<think>"
  thinkingEnd : EndMarker := { tail := ['/', 't', 'h', 'i', 'n', 'k', '>'] }
  /-- Whether a string format that means nothing is an error. -/
  strictFormats : Bool := false
  /-- Whether reversed bounds on a number of elements are mended; otherwise they are an error. -/
  clampArrayBounds : Bool := true
  thinkingStart_ne_empty : thinkingStart ≠ "" := by decide
deriving DecidableEq

/-- The rule that a consumer of the grammar starts from. -/
def GrammarSettings.entryRule (s : GrammarSettings) : String :=
  if s.includeThinking then "thinking-root" else "root"

/-- What a user asks of the sample compiler. -/
structure SampleOptions where
  openingDelimiter : String := "⟨"
  closingDelimiter : String := "⟩"
  /-- Whether the sample has line breaks, indentation and comments. -/
  prettyPrint : Bool := true
  /-- What a line is indented by at each level. -/
  indent : String := "    "

structure SampleSettings where
  delimiters : Delimiters := {}
  /-- Whether the sample has line breaks, indentation and comments. -/
  prettyPrint : Bool := true
  /-- What a line is indented by at each level. -/
  indent : String := "    "
  indent_blank : ∀ c ∈ indent.toList, Text.isBlank c = true := by decide
deriving DecidableEq

/-- Two texts as delimiters: single characters, and different ones. -/
def Delimiters.ofStrings (opening closing : String) : Except SettingsError Delimiters :=
  match opening.toList, closing.toList with
  | [o], [c] => if h : o ≠ c then .ok ⟨o, c, h⟩ else .error (.equalDelimiters opening)
  | _, _ => .error (.delimiterLength opening closing)

/-- Two integers as limits: neither is negative, and they are in order. -/
def Limits.ofInts (label : String) (min max : Int) : Except SettingsError Limits :=
  if min < 0 ∨ max < 0 then .error (.negativeBound label min max)
  else if h : min.toNat ≤ max.toNat then .ok ⟨min.toNat, max.toNat, h⟩
  else .error (.reversedBounds label min max)

/-- The settings that options ask for. Delimiters are checked first, then the limits, then what
concerns thinking. -/
def GrammarOptions.check (o : GrammarOptions) : Except SettingsError GrammarSettings := do
  let delimiters ← Delimiters.ofStrings o.openingDelimiter o.closingDelimiter
  let lengths ← Limits.ofInts "String length" o.defaultMinLength o.defaultMaxLength
  let items ← Limits.ofInts "Array item" o.defaultMinItems o.defaultMaxItems
  if o.maxThinkingLength < 0 then throw (.negativeThinkingLength o.maxThinkingLength)
  if h : o.thinkingStart ≠ "" then
    match EndMarker.ofString? o.thinkingEnd with
    | none => throw (.thinkingEnd o.thinkingEnd)
    | some marker =>
      return {
        lengths, items, delimiters
        includeThinking := o.includeThinking
        maxThinkingLength := o.maxThinkingLength.toNat
        thinkingStart := o.thinkingStart
        thinkingEnd := marker
        strictFormats := o.strictFormats
        clampArrayBounds := o.clampArrayBounds
        thinkingStart_ne_empty := h }
  else throw .emptyThinkingStart

def SampleOptions.check (o : SampleOptions) : Except SettingsError SampleSettings := do
  let delimiters ← Delimiters.ofStrings o.openingDelimiter o.closingDelimiter
  if h : o.indent.toList.all Text.isBlank = true then
    return { delimiters, prettyPrint := o.prettyPrint, indent := o.indent, indent_blank := List.all_eq_true.mp h }
  else throw (.indentNotBlank o.indent)

end RecordGrammar
