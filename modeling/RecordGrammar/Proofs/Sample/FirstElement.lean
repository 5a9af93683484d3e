import RecordGrammar.Proofs.Sample

/-!
# The first element of an array

The sample of an array shows its first element in full and marks it with `_1`. Whether to mark it is decided by the first
and the last characters of its text, and `markFirst_shapeText` says what comes of that for each kind of shape. The
placeholder of a shape without parts always takes the mark, before its closing delimiter. An object or an array should stay
as it is; it does unless its brackets are the delimiters (`arrayText_first`).
-/

namespace RecordGrammar

/-- What the placeholder of a scalar says. -/
def Scalar.hint : Scalar → String
  | integer => "integer value"
  | decimal => "decimal value"
  | boolean => "true|false"
  | date => "ISO 8601 date value (YYYY-MM-DDThh:mm:ss.sssZ)"
  | guid => "GUID value in standard format"

/-- What the placeholder of a shape without parts says. -/
def Shape.hint : Shape → String
  | string text => Sample.stringText text
  | scalar kind _ => kind.hint
  | enum _ values => "|".intercalate values
  | _ => ""

namespace Sample
variable {settings : SampleSettings} {d : Delimiters}

/-! ### Placeholders and brackets -/

/-- A placeholder in the place of a value of the shape: in quotes if its values are strings. -/
def valueText (d : Delimiters) (s : Shape) (text : String) : String :=
  if isQuoted s then inQuotes (placeholder d text) else placeholder d text

/-- What the text of a shape ends with, behind the place of a mark. -/
def closer (d : Delimiters) : Shape → String
  | .array _ _ _ _ => "]"
  | .object _ _ => "\x7d"
  | s => String.singleton d.closing ++ if isQuoted s then "\"" else ""

/-- Whether the text of the shape starts and ends as a placeholder does. -/
def looksLone (d : Delimiters) : Shape → Bool
  | .array _ _ _ _ => d.opening = '[' && d.closing = ']'
  | .object _ _ => d.opening = '\x7b' && d.closing = '\x7d'
  | _ => true

/-- The mark that the text of the shape takes as a first element. -/
def firstMark (d : Delimiters) (s : Shape) : String := if looksLone d s then "_1" else ""

theorem shapeText_leaf {s : Shape} (hleaf : s.isLeaf = true) (hknown : s.isKnown = true) (level : Nat) (fieldName : String) :
    shapeText settings level fieldName s = .ok (valueText settings.delimiters s s.hint) := by
  cases s with
  | string | enum => rfl
  | scalar kind => cases kind <;> rfl
  | array | object => cases hleaf
  | custom => cases hknown

theorem closer_leaf {s : Shape} (hleaf : s.isLeaf = true) :
    closer d s = String.singleton d.closing ++ if isQuoted s then "\"" else "" := by
  cases s with
  | array | object => cases hleaf
  | _ => rfl

/-- Room for a mark is between the text of a placeholder and its closing delimiter. -/
theorem exists_valueText {s : Shape} (hleaf : s.isLeaf = true) :
    ∃ front, ∀ text, valueText d s text = front ++ text ++ closer d s := by
  rw [closer_leaf hleaf]
  cases hquoted : isQuoted s with
  | true => exact ⟨"\"" ++ String.singleton d.opening, fun text => by
      simp only [valueText, hquoted, if_true, inQuotes, placeholder, String.append_assoc]⟩
  | false => exact ⟨String.singleton d.opening, fun text => by
      simp only [valueText, hquoted, Bool.false_eq_true, if_false, placeholder, String.append_empty]⟩

theorem looksLone_leaf {s : Shape} (hleaf : s.isLeaf = true) : looksLone d s = true := by
  cases s with
  | array | object => cases hleaf
  | _ => rfl

/-! ### Where the mark goes -/

theorem markBefore_append (front back mark : List Char) : markBefore back.length mark (front ++ back) = front ++ mark ++ back := by
  rw [markBefore, List.length_append, Nat.add_sub_cancel, List.take_left, List.drop_left]

/-- A text between quotes and delimiters takes the mark before the closing delimiter. -/
theorem markFirst_inQuotes (text : String) :
    markFirst d (inQuotes (placeholder d text)) = inQuotes (placeholder d (text ++ "_1")) := by
  have hchars (t : String) : (inQuotes (placeholder d t)).toList = ['"', d.opening] ++ t.toList ++ [d.closing, '"'] := by
    simp only [inQuotes, placeholder, String.toList_append, String.toList_singleton]
    simp
  have hstart : ['"', d.opening].isPrefixOf (['"', d.opening] ++ text.toList ++ [d.closing, '"']) = true := by
    rw [List.append_assoc]
    exact List.isPrefixOf_iff_prefix.mpr (List.prefix_append _ _)
  have hend : [d.closing, '"'].isSuffixOf (['"', d.opening] ++ text.toList ++ [d.closing, '"']) = true :=
    List.isSuffixOf_iff_suffix.mpr (List.suffix_append _ _)
  apply String.toList_injective
  rw [markFirst, hchars, if_pos (Bool.and_eq_true_iff.mpr ⟨hstart, hend⟩), String.toList_ofList, hchars, String.toList_append]
  exact (markBefore_append _ [d.closing, '"'] _).trans (by simp)

/-- A text between two characters that are not both quotes takes the mark before the last one if they are the delimiters. -/
theorem markFirst_between (first last : Char) (h : first = '"' → last ≠ '"') (text : String) :
    markFirst d (String.singleton first ++ text ++ String.singleton last) =
      String.singleton first ++ text ++ (if d.opening = first && d.closing = last then "_1" else "") ++ String.singleton last := by
  have hchars : (String.singleton first ++ text ++ String.singleton last).toList = first :: text.toList ++ [last] := by
    simp only [String.toList_append, String.toList_singleton, List.singleton_append]
  -- the test for a quoted placeholder asks for quotes at both ends
  have hquoted : (['"', d.opening].isPrefixOf (first :: text.toList ++ [last]) &&
      [d.closing, '"'].isSuffixOf (first :: text.toList ++ [last])) = false := by
    by_cases hfirst : first = '"'
    · simp [List.isSuffixOf, List.isPrefixOf, Ne.symm (h hfirst)]
    · simp [List.isPrefixOf, Ne.symm hfirst]
  have hlone : ([d.opening].isPrefixOf (first :: text.toList ++ [last]) &&
      [d.closing].isSuffixOf (first :: text.toList ++ [last])) = (d.opening = first && d.closing = last : Bool) := by
    simp [List.isSuffixOf, List.isPrefixOf, Bool.beq_eq_decide_eq]
  apply String.toList_injective
  rw [markFirst, hchars, if_neg (ne_true_of_eq_false hquoted), hlone]
  split
  · rw [String.toList_ofList]
    refine (markBefore_append _ [last] _).trans ?_
    simp
  · simp

/-! ### Texts of known shapes -/

theorem bind_eq_ok {α β : Type} {x : Except SampleError α} {f : α → Except SampleError β} {b : β} :
    x >>= f = .ok b ↔ ∃ a, x = .ok a ∧ f a = .ok b := by
  cases x <;> simp [bind, Except.bind]

theorem shapeText_array_eq_ok {element : Shape} {lo hi : Option Nat} {name fieldName v : String} {level : Nat} :
    shapeText settings level fieldName (.array element lo hi name) = .ok v ↔
      ∃ w, shapeText settings level fieldName element = .ok w ∧ arrayText settings.delimiters element fieldName w = v := by
  simp only [shapeText, bind_eq_ok, pure, Except.pure, Except.ok.injEq]

theorem shapeText_object_eq_ok {fields : List (Field Shape)} {name fieldName v : String} {level : Nat} :
    shapeText settings level fieldName (.object name fields) = .ok v ↔
      ∃ lines, fieldLines settings level fields = .ok lines ∧ objectText settings level lines = v := by
  simp only [shapeText, bind_eq_ok, pure, Except.pure, Except.ok.injEq]

theorem fieldLines_cons_eq_ok {name : String} {type : Shape} {description : Option String} {rest : List (Field Shape)}
    {level : Nat} {lines : List String} :
    fieldLines settings level (⟨name, type, description⟩ :: rest) = .ok lines ↔
      ∃ v, shapeText settings (level + 1) name type = .ok v ∧ ∃ lines', fieldLines settings level rest = .ok lines' ∧
        (indentation settings (level + 1) ++ Json.literal name ++ ": " ++ v ++ (if rest.isEmpty then "" else ",")
          ++ if settings.prettyPrint then comment description type else "") :: lines' = lines := by
  simp only [fieldLines, bind_eq_ok, pure, Except.pure, Except.ok.injEq]

mutual

/-- Exactly the shapes without unknown kinds have a text. -/
theorem exists_shapeText_iff (settings : SampleSettings) : ∀ {s : Shape} (level : Nat) (fieldName : String),
    (∃ v, shapeText settings level fieldName s = .ok v) ↔ s.every Shape.isKnown = true
  | .string _, _, _ => iff_of_true ⟨_, rfl⟩ rfl
  | .scalar _ _, _, _ => iff_of_true ⟨_, rfl⟩ rfl
  | .enum _ _, _, _ => iff_of_true ⟨_, rfl⟩ rfl
  | .custom _, _, _ => by
    refine iff_of_false ?_ Bool.false_ne_true
    rintro ⟨v, h⟩
    cases h
  | .array element _ _ _, level, fieldName => by
    simp only [shapeText_array_eq_ok, Shape.every, Shape.isKnown, Bool.true_and, ← exists_shapeText_iff settings level fieldName]
    constructor
    · rintro ⟨v, w, hw, -⟩
      exact ⟨w, hw⟩
    · rintro ⟨w, hw⟩
      exact ⟨_, w, hw, rfl⟩
  | .object _ fields, level, fieldName => by
    simp only [shapeText_object_eq_ok, Shape.every, Shape.isKnown, Bool.true_and, ← exists_fieldLines_iff settings level]
    constructor
    · rintro ⟨v, lines, hlines, -⟩
      exact ⟨lines, hlines⟩
    · rintro ⟨lines, hlines⟩
      exact ⟨_, lines, hlines, rfl⟩

theorem exists_fieldLines_iff (settings : SampleSettings) : ∀ {fields : List (Field Shape)} (level : Nat),
    (∃ lines, fieldLines settings level fields = .ok lines) ↔ Shape.everyField Shape.isKnown fields = true
  | [], _ => iff_of_true ⟨[], rfl⟩ rfl
  | ⟨name, type, description⟩ :: rest, level => by
    simp only [fieldLines_cons_eq_ok, Shape.everyField, Bool.and_eq_true, ← exists_shapeText_iff settings (level + 1) name,
      ← exists_fieldLines_iff settings level]
    constructor
    · rintro ⟨lines, v, hv, lines', hlines', -⟩
      exact ⟨⟨v, hv⟩, lines', hlines'⟩
    · rintro ⟨⟨v, hv⟩, lines', hlines'⟩
      exact ⟨_, v, hv, lines', hlines', rfl⟩

end

theorem markFirst_array (element : Shape) (lo hi : Option Nat) (name inner : String) :
    markFirst d ("[" ++ inner ++ "]") = "[" ++ inner ++ firstMark d (.array element lo hi name) ++ "]" :=
  markFirst_between '[' ']' nofun inner

theorem markFirst_object (name inner : String) (fields : List (Field Shape)) :
    markFirst d ("\x7b" ++ inner ++ "\x7d") = "\x7b" ++ inner ++ firstMark d (.object name fields) ++ "\x7d" :=
  markFirst_between '\x7b' '\x7d' nofun inner

theorem exists_arrayText (element : Shape) (fieldName first : String) :
    ∃ inner, arrayText d element fieldName first = "[" ++ inner ++ "]" :=
  ⟨markFirst d first ++ ", " ++ laterElement d element fieldName "2" ++ ", " ++ laterElement d element fieldName "N", by
    simp only [arrayText, String.append_assoc]⟩

theorem exists_objectText (settings : SampleSettings) (level : Nat) (lines : List String) :
    ∃ inner, objectText settings level lines = "\x7b" ++ inner ++ "\x7d" := by
  rw [objectText]
  split
  · exact ⟨"", rfl⟩
  · exact ⟨newline settings ++ (newline settings).intercalate lines ++ newline settings ++ indentation settings level, by
      simp only [newline, String.append_assoc]⟩

/-- A placeholder always takes the mark, before its closing delimiter. -/
theorem markFirst_valueText (s : Shape) (text : String) : markFirst d (valueText d s text) = valueText d s (text ++ "_1") := by
  rw [valueText, valueText]
  split
  · exact markFirst_inQuotes text
  · refine (markFirst_between d.opening d.closing (fun h h' => d.opening_ne_closing (h.trans h'.symm)) text).trans ?_
    simp only [decide_true, Bool.and_self, if_true, placeholder, String.append_assoc]

theorem exists_marked_leaf {s : Shape} (hleaf : s.isLeaf = true) (text : String) :
    ∃ front, valueText d s text = front ++ closer d s ∧
      markFirst d (valueText d s text) = front ++ firstMark d s ++ closer d s := by
  obtain ⟨front, hfront⟩ := exists_valueText (d := d) hleaf
  refine ⟨front ++ text, hfront text, ?_⟩
  rw [markFirst_valueText, hfront, firstMark, looksLone_leaf hleaf, if_pos rfl, ← String.append_assoc]

theorem isKnown_of_shapeText {s : Shape} {level : Nat} {fieldName v : String}
    (h : shapeText settings level fieldName s = .ok v) : s.isKnown = true := by
  cases s with
  | custom => cases h
  | _ => rfl

/-- The text of a shape has a place for a mark, and as a first element it has the mark of the shape there. -/
theorem markFirst_shapeText {s : Shape} {level : Nat} {fieldName v : String}
    (h : shapeText settings level fieldName s = .ok v) :
    ∃ front, v = front ++ closer settings.delimiters s ∧
      markFirst settings.delimiters v = front ++ firstMark settings.delimiters s ++ closer settings.delimiters s := by
  by_cases hleaf : s.isLeaf = true
  · cases (shapeText_leaf hleaf (isKnown_of_shapeText h) level fieldName).symm.trans h
    exact exists_marked_leaf hleaf s.hint
  · cases s with
    | array element lo hi name =>
      obtain ⟨w, -, rfl⟩ := shapeText_array_eq_ok.mp h
      obtain ⟨inner, hinner⟩ := exists_arrayText (d := settings.delimiters) element fieldName w
      rw [hinner]
      exact ⟨"[" ++ inner, rfl, markFirst_array element lo hi name inner⟩
    | object name fields =>
      obtain ⟨lines, -, rfl⟩ := shapeText_object_eq_ok.mp h
      obtain ⟨inner, hinner⟩ := exists_objectText settings level lines
      rw [hinner]
      exact ⟨"\x7b" ++ inner, rfl, markFirst_object name inner fields⟩
    | string | scalar | enum | custom => exact absurd rfl hleaf

theorem markFirst_append {s : Shape} {level : Nat} {fieldName front : String}
    (h : shapeText settings level fieldName s = .ok (front ++ closer settings.delimiters s)) :
    markFirst settings.delimiters (front ++ closer settings.delimiters s) =
      front ++ firstMark settings.delimiters s ++ closer settings.delimiters s := by
  obtain ⟨front', hfront, hmark⟩ := markFirst_shapeText h
  rw [hmark, (String.append_left_inj _).mp hfront]

/-! ### The first element -/

/-- An array of known kinds shows the text of its element first. The placeholder of an element without parts has the mark before
its closing delimiter; an object or an array has no mark if and only if its brackets are not the delimiters. -/
theorem arrayText_first (settings : SampleSettings) (element : Shape) (lo hi : Option Nat) (name : String) (level : Nat)
    (fieldName : String) :
    ((∃ v, shapeText settings level fieldName (.array element lo hi name) = .ok v) ↔ element.every Shape.isKnown = true) ∧
    ∀ v, shapeText settings level fieldName (.array element lo hi name) = .ok v →
      ∃ front first, shapeText settings level fieldName element = .ok (front ++ closer settings.delimiters element) ∧
        v = "[" ++ first ++ ", " ++ laterElement settings.delimiters element fieldName "2" ++ ", "
          ++ laterElement settings.delimiters element fieldName "N" ++ "]" ∧
        (element.isLeaf = true →
          front ++ closer settings.delimiters element = valueText settings.delimiters element element.hint ∧
          first = valueText settings.delimiters element (element.hint ++ "_1")) ∧
        (element.isLeaf = false →
          first = front ++ firstMark settings.delimiters element ++ closer settings.delimiters element ∧
          (first = front ++ closer settings.delimiters element ↔ looksLone settings.delimiters element = false)) := by
  refine ⟨exists_shapeText_iff settings level fieldName, fun v h => ?_⟩
  obtain ⟨w, hw, rfl⟩ := shapeText_array_eq_ok.mp h
  obtain ⟨front, rfl, hmark⟩ := markFirst_shapeText hw
  refine ⟨front, _, hw, rfl, fun hleaf => ?_, fun _ => ⟨hmark, ?_⟩⟩
  · have htext := Except.ok.inj (hw.symm.trans (shapeText_leaf hleaf (isKnown_of_shapeText hw) level fieldName))
    exact ⟨htext, by rw [htext, markFirst_valueText]⟩
  · rw [hmark, String.append_left_inj, String.append_eq_left_iff, firstMark]
    cases looksLone settings.delimiters element <;> simp

/-- Square brackets as delimiters leave an object as it is. -/
theorem arrayText_first_item :
    ∃ settings : SampleSettings, settings.delimiters.opening = '[' ∧ settings.delimiters.closing = ']' ∧
      shapeText settings 1 "Items" (.array (.object "Item" []) none none "array") = .ok "[\x7b\x7d, Items_2, Items_N]" := by
  let settings : SampleSettings := { SampleSettings.ofBlanks 4 with delimiters := { opening := '[', closing := ']' } }
  obtain ⟨hok, hfirst⟩ := arrayText_first settings (.object "Item" []) none none "array" 1 "Items"
  obtain ⟨v, hv⟩ := hok.mpr rfl
  obtain ⟨front, first, hshown, rfl, -, hobject⟩ := hfirst v hv
  have hunmarked := (hobject rfl).2.mpr rfl
  have hempty : shapeText settings 1 "Items" (.object "Item" []) = .ok "\x7b\x7d" := rfl
  refine ⟨settings, rfl, rfl, ?_⟩
  rw [hv, hunmarked, ← Except.ok.inj (hempty.symm.trans hshown)]
  rfl

/-- Braces as delimiters make an object look like a placeholder. -/
theorem object_marked_first :
    ∃ settings : SampleSettings, settings.delimiters.opening = '\x7b' ∧ settings.delimiters.closing = '\x7d' ∧
      (Shape.object "Item" []).sample settings = .ok "\x7b\x7d" ∧
      (Shape.array (.object "Item" []) none none "array").sample settings = .ok "[\x7b_1\x7d, array_2, array_N]" :=
  ⟨{ SampleSettings.ofBlanks 4 with delimiters := { opening := '\x7b', closing := '\x7d' } }, rfl, rfl, rfl, by cbv⟩

end Sample
end RecordGrammar
