import RecordGrammar.Proofs.Json.Strings
import RecordGrammar.Proofs.Sample.FirstElement
import RecordGrammar.Proofs.Text.Split

/-!
# The lines of a sample

`Shape.rows` lays a shape out in rows from its nesting alone: a row for each field, one for the closing brace of each object
that has fields, and one for the opening brace of the whole. `Sample.lines` puts the texts of a sample into these rows, and a
sample is its lines joined (`linesText_lines`). The keys are written with escapes, but the other texts are not: the lines of a
sample are its rows if and only if none of them has a line break in it (`sample_lines_iff`).
-/

namespace RecordGrammar

/-! ### Rows -/

/-- A row of a layout. -/
structure Sample.Row where
  level : Nat
  /-- The key the row starts with; none on the row of a brace. -/
  key? : Option String
  /-- The field whose text ends on the row. -/
  ended? : Option (Field Shape)

namespace Shape

mutual

/-- The rows of a shape whose text starts on a given row and whose object ends at a level. -/
def rows (level : Nat) (start : Sample.Row) : Shape → List Sample.Row
  | array element _ _ _ => element.rows level start
  | object _ (f :: fields) =>
    -- the field that would have ended on the first row ends on that of the closing brace
    { start with ended? := none } :: fieldRows level (f :: fields) ++ [⟨level, none, start.ended?⟩]
  | _ => [start]

/-- The rows of the fields of an object that ends at the given level. -/
def fieldRows (level : Nat) : List (Field Shape) → List Sample.Row
  | [] => []
  | ⟨name, type, description⟩ :: rest =>
    type.rows (level + 1) ⟨level + 1, some name, some ⟨name, type, description⟩⟩ ++ fieldRows level rest

end

mutual

/-- The shape without the descriptions of its fields. -/
def undescribed : Shape → Shape
  | array element lo hi name => array element.undescribed lo hi name
  | object name fields => object name (fieldsUndescribed fields)
  | s => s

def fieldsUndescribed : List (Field Shape) → List (Field Shape)
  | [] => []
  | ⟨name, type, _⟩ :: rest => ⟨name, type.undescribed, none⟩ :: fieldsUndescribed rest

end

/-- The texts of a placeholder that are the shape's own. -/
def hintTexts : Shape → List String
  | string text => if text.allowed = [] then [Sample.stringText text] else text.allowed
  | enum _ values => values
  | _ => []

end Shape

namespace Sample

/-! ### Lines -/

/-- A row with the text that stands on it between the key and the comment. -/
structure Line extends Row where
  value : String

namespace Line

def add (l : Line) (text : String) : Line := { l with value := l.value ++ text }

/-- The line goes on with the brace of an object that has fields, so nothing ends on it. -/
def opening (l : Line) : Line := { l.add "\x7b" with ended? := none }

/-- The line of the closing brace, on which the field ends that the given line belongs to. -/
def closing (l : Line) (level : Nat) (text : String) : Line := { level, key? := none, ended? := l.ended?, value := text }

/-- The first line of a field. -/
def ofField (level : Nat) (f : Field Shape) : Line := { level, key? := some f.name, ended? := some f, value := "" }

/-- The indentation of the line, its key, and what stands behind the key. -/
def before (settings : SampleSettings) (l : Line) : String :=
  indentation settings l.level ++ (match l.key? with
    | some key => Json.literal key ++ ": "
    | none => "") ++ l.value

/-- The comment of the field that ends on the line. -/
def remark (settings : SampleSettings) (l : Line) : String :=
  match l.ended? with
  | some f => if settings.prettyPrint then comment f.description f.type else ""
  | none => ""

def text (settings : SampleSettings) (l : Line) : String := l.before settings ++ l.remark settings

end Line

mutual

/-- The lines of a shape whose text continues a line and is followed by another text. The mark, if there is one, stands
before the closing delimiter or bracket. -/
def lines (settings : SampleSettings) (level : Nat) (fieldName mark : String) (start : Line) (after : String) : Shape → List Line
  | .array element _ _ _ =>
    lines settings level fieldName (firstMark settings.delimiters element) (start.add "[")
      (", " ++ laterElement settings.delimiters element fieldName "2" ++ ", "
        ++ laterElement settings.delimiters element fieldName "N" ++ mark ++ "]" ++ after) element
  | .object _ [] => [start.add ("\x7b" ++ mark ++ "\x7d" ++ after)]
  | .object _ (f :: fields) =>
    start.opening :: linesOfFields settings level (f :: fields) ++ [start.closing level (mark ++ "\x7d" ++ after)]
  | s => [start.add (valueText settings.delimiters s (s.hint ++ mark) ++ after)]

/-- The lines of the fields of an object that ends at the given level. -/
def linesOfFields (settings : SampleSettings) (level : Nat) : List (Field Shape) → List Line
  | [] => []
  | ⟨name, type, description⟩ :: rest =>
    lines settings (level + 1) name "" (.ofField (level + 1) ⟨name, type, description⟩) (if rest.isEmpty then "" else ",") type
      ++ linesOfFields settings level rest

end

/-- The lines put together. -/
def linesText (settings : SampleSettings) (ls : List Line) : String :=
  (newline settings).intercalate (ls.map (Line.text settings))

mutual

/-- The texts that stand in the sample of a shape as they are. -/
def shownTexts (settings : SampleSettings) (fieldName : String) : Shape → List String
  | .array element _ _ _ => fieldName :: shownTexts settings fieldName element
  | .object _ fields => shownTextsOfFields settings fields
  | s => String.singleton settings.delimiters.opening :: String.singleton settings.delimiters.closing :: s.hintTexts

def shownTextsOfFields (settings : SampleSettings) : List (Field Shape) → List String
  | [] => []
  | ⟨name, type, description⟩ :: rest =>
    (if settings.prettyPrint then (description.map Text.trim).toList ++ allowedOf type else [])
      ++ shownTexts settings name type ++ shownTextsOfFields settings rest

end

/-- Whether a text has no line break in it. -/
def OneLine (text : String) : Prop := '\n' ∉ text.toList

instance (text : String) : Decidable (OneLine text) := inferInstanceAs (Decidable (_ ∉ _))

/-! ### The sample is its lines -/

variable {settings : SampleSettings} {level : Nat} {fieldName : String}

theorem lines_ne_nil : ∀ (s : Shape) (level : Nat) (fieldName mark : String) (start : Line) (after : String),
    lines settings level fieldName mark start after s ≠ []
  | .array element _ _ _, level, fieldName, _, _, _ => by
    rw [lines]
    exact lines_ne_nil element level fieldName _ _ _
  | .object _ [], _, _, _, _, _ => List.cons_ne_nil _ _
  | .object _ (_ :: _), _, _, _, _, _ => List.cons_ne_nil _ _
  | .string _, _, _, _, _, _ | .scalar _ _, _, _, _, _, _ | .enum _ _, _, _, _, _, _ | .custom _, _, _, _, _, _ =>
    List.cons_ne_nil _ _

theorem linesOfFields_ne_nil (level : Nat) (f : Field Shape) (fields : List (Field Shape)) :
    linesOfFields settings level (f :: fields) ≠ [] := by
  rw [linesOfFields]
  exact List.append_ne_nil_of_left_ne_nil (lines_ne_nil f.type _ _ _ _ _) _

theorem linesText_append {ls ls' : List Line} (h : ls ≠ []) (h' : ls' ≠ []) :
    linesText settings (ls ++ ls') = linesText settings ls ++ newline settings ++ linesText settings ls' := by
  rw [linesText, List.map_append]
  exact String.intercalate_append_of_ne_nil (by simpa using h) (by simpa using h')

theorem linesText_singleton (l : Line) : linesText settings [l] = l.text settings := by
  rw [linesText, List.map_singleton, String.intercalate_singleton]

theorem Line.before_add (l : Line) (text : String) : (l.add text).before settings = l.before settings ++ text := by
  simp only [Line.before, Line.add, String.append_assoc]

theorem Line.text_add (l : Line) (text : String) :
    (l.add text).text settings = l.before settings ++ text ++ l.remark settings := by
  rw [Line.text, Line.before_add]
  rfl

theorem Line.text_opening (l : Line) : l.opening.text settings = l.before settings ++ "\x7b" :=
  String.append_empty.trans (l.before_add "\x7b")

theorem Line.value_opening (l : Line) : l.opening.value = l.value ++ "\x7b" := rfl

theorem Line.value_closing (l : Line) (level : Nat) (text : String) : (l.closing level text).value = text := rfl

theorem Line.text_closing (l : Line) (level : Nat) (text : String) :
    (l.closing level text).text settings = indentation settings level ++ text ++ l.remark settings := by
  simp only [Line.text, Line.before, Line.closing, String.append_empty]
  rfl

theorem Line.before_ofField (level : Nat) (f : Field Shape) :
    (Line.ofField level f).before settings = indentation settings level ++ (Json.literal f.name ++ ": ") :=
  String.append_empty

theorem Line.remark_ofField (level : Nat) (f : Field Shape) :
    (Line.ofField level f).remark settings = if settings.prettyPrint then comment f.description f.type else "" := rfl

/-- The lines of an object are its braces around the lines of its fields. -/
theorem linesText_object {ls : List Line} (hne : ls ≠ []) (level : Nat) (start : Line) (text : String) :
    linesText settings (start.opening :: ls ++ [start.closing level text]) =
      start.before settings ++ "\x7b" ++ newline settings ++ linesText settings ls ++ newline settings
        ++ (indentation settings level ++ text ++ start.remark settings) := by
  rw [List.cons_append, ← List.singleton_append, linesText_append (List.cons_ne_nil _ _) (List.append_ne_nil_of_left_ne_nil hne _),
    linesText_append hne (List.cons_ne_nil _ _), linesText_singleton, linesText_singleton, Line.text_opening, Line.text_closing]
  simp only [String.append_assoc]

theorem lines_leaf {s : Shape} (hleaf : s.isLeaf = true) (mark : String) (start : Line) (after : String) :
    lines settings level fieldName mark start after s =
      [start.add (valueText settings.delimiters s (s.hint ++ mark) ++ after)] := by
  cases s with
  | array | object => cases hleaf
  | _ => rfl

theorem linesText_leaf {s : Shape} (hleaf : s.isLeaf = true) {v : String} (h : shapeText settings level fieldName s = .ok v) :
    ∃ front, v = front ++ closer settings.delimiters s ∧ ∀ mark start after,
      linesText settings (lines settings level fieldName mark start after s) =
        start.before settings ++ (front ++ mark ++ closer settings.delimiters s) ++ after ++ start.remark settings := by
  obtain ⟨front, hfront⟩ := exists_valueText (d := settings.delimiters) hleaf
  cases (shapeText_leaf hleaf (isKnown_of_shapeText h) level fieldName).symm.trans h
  refine ⟨front ++ s.hint, hfront s.hint, fun mark start after => ?_⟩
  rw [lines_leaf hleaf, linesText_singleton, Line.text_add, hfront]
  simp only [String.append_assoc]

-- The induction is over any start, mark and rest, since an array goes on with the line that it stands on.
mutual

/-- The lines of a shape are its text, with a mark before the closing delimiter or bracket, between the other texts of the
first and the last line. -/
theorem linesText_lines : ∀ {s : Shape} {level : Nat} {fieldName v : String}, shapeText settings level fieldName s = .ok v →
    ∃ front, v = front ++ closer settings.delimiters s ∧ ∀ mark start after,
      linesText settings (lines settings level fieldName mark start after s) =
        start.before settings ++ (front ++ mark ++ closer settings.delimiters s) ++ after ++ start.remark settings
  | .array element lo hi name, level, fieldName, v, h => by
    obtain ⟨w, hw, rfl⟩ := shapeText_array_eq_ok.mp h
    obtain ⟨front, rfl, hjoined⟩ := linesText_lines hw
    -- the lines of the element have the mark at the place where `markFirst` puts it into the text
    refine ⟨"[" ++ markFirst settings.delimiters (front ++ closer settings.delimiters element) ++ ", "
      ++ laterElement settings.delimiters element fieldName "2" ++ ", "
      ++ laterElement settings.delimiters element fieldName "N", rfl, fun mark start after => ?_⟩
    rw [lines, hjoined, Line.before_add, markFirst_append hw]
    simp only [String.append_assoc]
    rfl
  | .object name [], level, fieldName, v, h => by
    cases h
    refine ⟨"\x7b", rfl, fun mark start after => ?_⟩
    rw [lines, linesText_singleton, Line.text_add]
    simp only [closer, String.append_assoc]
  | .object name (f :: fields), level, fieldName, v, h => by
    obtain ⟨ls, hls, rfl⟩ := shapeText_object_eq_ok.mp h
    obtain ⟨hne, hjoined⟩ := linesText_linesOfFields hls
    refine ⟨"\x7b" ++ newline settings ++ (newline settings).intercalate ls ++ newline settings ++ indentation settings level,
      ?_, fun mark start after => ?_⟩
    · rw [objectText, if_neg (hne (List.cons_ne_nil f fields))]
      rfl
    · rw [lines, linesText_object (linesOfFields_ne_nil level f fields), hjoined]
      simp only [closer, String.append_assoc]
  | .string _, _, _, _, h | .scalar _ _, _, _, _, h | .enum _ _, _, _, _, h | .custom _, _, _, _, h => linesText_leaf rfl h

theorem linesText_linesOfFields : ∀ {fields : List (Field Shape)} {level : Nat} {ls : List String},
    fieldLines settings level fields = .ok ls → (fields ≠ [] → ls ≠ []) ∧
      linesText settings (linesOfFields settings level fields) = (newline settings).intercalate ls
  | [], level, ls, h => by
    cases h
    exact ⟨fun h => absurd rfl h, rfl⟩
  | ⟨name, type, description⟩ :: rest, level, ls, h => by
    obtain ⟨v, hv, ls', hls', rfl⟩ := fieldLines_cons_eq_ok.mp h
    obtain ⟨front, rfl, hvalue⟩ := linesText_lines hv
    obtain ⟨hne, hrest⟩ := linesText_linesOfFields hls'
    refine ⟨fun _ => List.cons_ne_nil _ _, ?_⟩
    rw [linesOfFields]
    cases rest with
    | nil =>
      cases hls'
      rw [linesOfFields, List.append_nil, hvalue, String.intercalate_singleton]
      simp only [Line.before_ofField, Line.remark_ofField, String.append_assoc, String.append_empty]
    | cons f rest =>
      obtain ⟨l, ls, rfl⟩ := List.exists_cons_of_ne_nil (hne (List.cons_ne_nil f rest))
      rw [linesText_append (lines_ne_nil _ _ _ _ _ _) (linesOfFields_ne_nil level f rest), hvalue, hrest,
        String.intercalate_cons_cons]
      simp only [Line.before_ofField, Line.remark_ofField, String.append_assoc, String.append_empty]

end

/-! ### What the lines are made of -/

mutual

/-- The lines of a shape stand in its rows. -/
theorem map_toRow_lines : ∀ {s : Shape} (level : Nat) (fieldName mark : String) (start : Line) (after : String),
    (lines settings level fieldName mark start after s).map Line.toRow = s.rows level start.toRow
  | .array _ _ _ _, _, _, _, _, _ => by
    rw [lines, Shape.rows, map_toRow_lines]
    rfl
  | .object _ [], _, _, _, _, _ => rfl
  | .object _ (f :: fields), level, _, _, _, _ => by
    rw [lines, Shape.rows, List.map_append, List.map_cons, map_toRow_linesOfFields]
    rfl
  | .string _, _, _, _, _, _ | .scalar _ _, _, _, _, _, _ | .enum _ _, _, _, _, _, _ | .custom _, _, _, _, _, _ => rfl

theorem map_toRow_linesOfFields : ∀ {fields : List (Field Shape)} (level : Nat),
    (linesOfFields settings level fields).map Line.toRow = Shape.fieldRows level fields
  | [], _ => rfl
  | ⟨_, _, _⟩ :: _, level => by
    rw [linesOfFields, Shape.fieldRows, List.map_append, map_toRow_lines, map_toRow_linesOfFields]
    rfl

end

theorem laterElement_undescribed (d : Delimiters) (s : Shape) (fieldName place : String) :
    laterElement d s.undescribed fieldName place = laterElement d s fieldName place := by
  cases s <;> rfl

theorem firstMark_undescribed (d : Delimiters) (s : Shape) : firstMark d s.undescribed = firstMark d s := by
  cases s <;> rfl

theorem map_value_leaf {s : Shape} (hleaf : s.isLeaf = true) (level : Nat) (fieldName mark : String) {start start' : Line}
    (after : String) (h : start.value = start'.value) :
    (lines settings level fieldName mark start after s.undescribed).map Line.value =
      (lines settings level fieldName mark start' after s).map Line.value := by
  have hsame : s.undescribed = s := by
    cases s with
    | array | object => cases hleaf
    | _ => rfl
  rw [hsame, lines_leaf hleaf, lines_leaf hleaf, List.map_singleton, List.map_singleton, Line.add, Line.add, h]

mutual

/-- Between the keys and the comments, nothing comes from a description. -/
theorem map_value_undescribed : ∀ {s : Shape} (level : Nat) (fieldName mark : String) {start start' : Line} (after : String),
    start.value = start'.value → (lines settings level fieldName mark start after s.undescribed).map Line.value =
      (lines settings level fieldName mark start' after s).map Line.value
  | .array _ _ _ _, _, _, _, start, start', _, h => by
    rw [Shape.undescribed, lines, lines, laterElement_undescribed, laterElement_undescribed, firstMark_undescribed]
    exact map_value_undescribed _ _ _ _ (by rw [Line.add, Line.add, h])
  | .object _ [], _, _, _, start, start', _, h => by
    rw [Shape.undescribed, Shape.fieldsUndescribed, lines, lines, List.map_singleton, List.map_singleton, Line.add, Line.add, h]
  | .object _ (f :: fields), level, _, _, start, start', _, h => by
    have hfields := @map_value_fieldsUndescribed (f :: fields) level
    rw [Shape.fieldsUndescribed] at hfields
    rw [Shape.undescribed, Shape.fieldsUndescribed, lines, lines]
    simp only [List.map_append, List.map_cons, List.map_nil, hfields, Line.value_opening, Line.value_closing, h]
  | .string _, level, fieldName, mark, _, _, after, h | .scalar _ _, level, fieldName, mark, _, _, after, h
  | .enum _ _, level, fieldName, mark, _, _, after, h | .custom _, level, fieldName, mark, _, _, after, h =>
    map_value_leaf rfl level fieldName mark after h

theorem map_value_fieldsUndescribed : ∀ {fields : List (Field Shape)} (level : Nat),
    (linesOfFields settings level (Shape.fieldsUndescribed fields)).map Line.value =
      (linesOfFields settings level fields).map Line.value
  | [], _ => rfl
  | ⟨_, _, _⟩ :: rest, level => by
    have hempty : (Shape.fieldsUndescribed rest).isEmpty = rest.isEmpty := by cases rest <;> rfl
    rw [Shape.fieldsUndescribed, linesOfFields, linesOfFields, hempty, List.map_append, List.map_append,
      map_value_fieldsUndescribed, map_value_undescribed]
    rfl

end

/-- A text that begins with the closing brace of an object, which may have a mark before it. -/
def IsClosing (value : String) : Prop := ∃ mark rest, (mark = "" ∨ mark = "_1") ∧ value = mark ++ "\x7d" ++ rest

theorem firstMark_eq_or (d : Delimiters) (s : Shape) : firstMark d s = "" ∨ firstMark d s = "_1" := by
  rw [firstMark]
  split
  · exact .inr rfl
  · exact .inl rfl

theorem isClosing_of_mem_leaf {s : Shape} (hleaf : s.isLeaf = true) {level : Nat} {fieldName mark : String} {start : Line}
    {after : String} (hkey : start.key? ≠ none) :
    ∀ l ∈ lines settings level fieldName mark start after s, l.key? = none → IsClosing l.value := by
  rw [lines_leaf hleaf, List.forall_mem_singleton]
  exact fun h => absurd h hkey

mutual

/-- Below a line with a key, each line has a key or begins with a closing brace. -/
theorem isClosing_of_mem_lines : ∀ {s : Shape} {level : Nat} {fieldName mark : String} {start : Line} {after : String},
    start.key? ≠ none → (mark = "" ∨ mark = "_1") →
    ∀ l ∈ lines settings level fieldName mark start after s, l.key? = none → IsClosing l.value
  | .array element _ _ _, _, _, _, start, _, hkey, _ => by
    have hadd : (start.add "[").key? ≠ none := hkey
    rw [lines]
    exact isClosing_of_mem_lines hadd (firstMark_eq_or _ element)
  | .object _ [], _, _, _, _, _, hkey, _ => by
    rw [lines, List.forall_mem_singleton]
    exact fun h => absurd h hkey
  | .object _ (f :: fields), level, _, mark, start, after, hkey, hmark => by
    rw [lines, List.forall_mem_append, List.forall_mem_cons, List.forall_mem_singleton]
    exact ⟨⟨fun h => absurd h hkey, isClosing_of_mem_linesOfFields⟩, fun _ => ⟨mark, after, hmark, rfl⟩⟩
  | .string _, _, _, _, _, _, hkey, _ | .scalar _ _, _, _, _, _, _, hkey, _ | .enum _ _, _, _, _, _, _, hkey, _
  | .custom _, _, _, _, _, _, hkey, _ => isClosing_of_mem_leaf rfl hkey

theorem isClosing_of_mem_linesOfFields : ∀ {fields : List (Field Shape)} {level : Nat},
    ∀ l ∈ linesOfFields settings level fields, l.key? = none → IsClosing l.value
  | [], _ => List.forall_mem_nil _
  | ⟨name, type, description⟩ :: _, level => by
    rw [linesOfFields, List.forall_mem_append]
    have hkey : (Line.ofField (level + 1) ⟨name, type, description⟩).key? ≠ none := Option.some_ne_none name
    exact ⟨isClosing_of_mem_lines hkey (.inl rfl), isClosing_of_mem_linesOfFields⟩

end

/-! ### Line breaks -/

theorem oneLine_append {s t : String} : OneLine (s ++ t) ↔ OneLine s ∧ OneLine t := by
  rw [OneLine, String.toList_append, List.mem_append, not_or]
  rfl

theorem oneLine_intercalate {between : String} (h : OneLine between) {texts : List String} :
    OneLine (between.intercalate texts) ↔ ∀ t ∈ texts, OneLine t := by
  rw [OneLine, Text.mem_intercalate h]
  simp only [not_exists, not_and, OneLine]

theorem oneLine_indentation (h : OneLine settings.indent) (level : Nat) : OneLine (indentation settings level) := by
  rw [indentation]
  split
  · rw [OneLine, String.toList_join, List.flatMap_replicate]
    exact fun hc => h (by simp_all)
  · exact List.not_mem_nil

/-- The escapes of a key leave no line break in it. -/
theorem oneLine_literal (s : String) : OneLine (Json.literal s) := by
  rw [OneLine, Json.literal, String.toList_ofList, Json.literalChars]
  simpa using (JsonText.chars_literal s.toList).break_not_mem

/-- A comment holds the description and the allowed values as they are. -/
theorem oneLine_comment (description : Option String) (type : Shape) :
    OneLine (comment description type) ↔ ∀ t ∈ (description.map Text.trim).toList ++ allowedOf type, OneLine t := by
  have htold : (∀ t ∈ ((description.map Text.trim).filter (· ≠ "")).toList, OneLine t) ↔
      ∀ t ∈ (description.map Text.trim).toList, OneLine t := by
    cases description with
    | none => rfl
    | some text =>
      by_cases hempty : Text.trim text = ""
      · have hone : OneLine "" := by decide
        simp [hempty, hone]
      · simp [Option.filter, hempty]
  have hlisted : (∀ t ∈ if allowedOf type = [] then [] else ["Allowed values: " ++ " or ".intercalate (allowedOf type)],
      OneLine t) ↔ ∀ t ∈ allowedOf type, OneLine t := by
    split
    · next h => simp [h]
    · rw [List.forall_mem_singleton, oneLine_append, oneLine_intercalate (by decide)]
      exact and_iff_right (by decide)
  rw [List.forall_mem_append, ← htold, ← hlisted, ← List.forall_mem_append, comment]
  cases (Option.filter (· ≠ "") (description.map Text.trim)).toList ++
    if allowedOf type = [] then [] else ["Allowed values: " ++ " or ".intercalate (allowedOf type)] with
  | nil => simp only [List.not_mem_nil, false_implies, implies_true, iff_true]; decide
  | cons part parts =>
    rw [oneLine_append, oneLine_intercalate (by decide)]
    exact and_iff_right (by decide)

theorem oneLine_hint {s : Shape} (hleaf : s.isLeaf = true) : OneLine s.hint ↔ ∀ t ∈ s.hintTexts, OneLine t := by
  cases s with
  | string text =>
    rw [Shape.hint, Shape.hintTexts]
    split
    · rw [List.forall_mem_singleton]
    · next h => rw [stringText, if_pos h, oneLine_intercalate (by decide)]
  | scalar kind =>
    have hhint : OneLine kind.hint := by cases kind <;> decide
    exact iff_of_true hhint (List.forall_mem_nil _)
  | enum _ values => exact oneLine_intercalate (by decide)
  | custom =>
    have hhint : OneLine "" := by decide
    exact iff_of_true hhint (List.forall_mem_nil _)
  | array | object => cases hleaf

theorem oneLine_valueText {d : Delimiters} {s : Shape} {text : String} : OneLine (valueText d s text) ↔
    OneLine (String.singleton d.opening) ∧ OneLine text ∧ OneLine (String.singleton d.closing) := by
  have hquote : OneLine "\"" := by decide
  rw [valueText]
  split <;> simp only [inQuotes, placeholder, oneLine_append, and_assoc, hquote, true_and, and_true]

theorem shownTexts_leaf {s : Shape} (hleaf : s.isLeaf = true) : shownTexts settings fieldName s =
    String.singleton settings.delimiters.opening :: String.singleton settings.delimiters.closing :: s.hintTexts := by
  cases s with
  | array | object => cases hleaf
  | _ => rfl

/-- The delimiters are among the texts of an element without parts, so a later element adds the name of the field. -/
theorem oneLine_laterElement {element : Shape} (h : ∀ t ∈ shownTexts settings fieldName element, OneLine t) {place : String}
    (hplace : OneLine place) : OneLine (laterElement settings.delimiters element fieldName place) ↔ OneLine fieldName := by
  have hlabel : OneLine (fieldName ++ "_" ++ place) ↔ OneLine fieldName := by
    rw [oneLine_append, oneLine_append, and_iff_left hplace]
    exact and_iff_left (by decide)
  rw [← hlabel]
  by_cases hleaf : element.isLeaf = true
  · rw [shownTexts_leaf hleaf, List.forall_mem_cons, List.forall_mem_cons] at h
    have hvalue : laterElement settings.delimiters element fieldName place =
        valueText settings.delimiters element (fieldName ++ "_" ++ place) := by
      cases element with
      | array | object => cases hleaf
      | _ => rfl
    rw [hvalue, oneLine_valueText, and_iff_right h.1, and_iff_left h.2.1]
  · cases element with
    | array | object => rfl
    | _ => exact absurd rfl hleaf

theorem oneLine_firstMark (d : Delimiters) (s : Shape) : OneLine (firstMark d s) := by
  rw [firstMark]
  split <;> decide

theorem oneLine_text_add {l : Line} {text : String} :
    OneLine ((l.add text).text settings) ↔ OneLine (l.text settings) ∧ OneLine text := by
  rw [Line.text_add, Line.text, oneLine_append, oneLine_append, oneLine_append]
  tauto

/-- The first line of a field shows its description and its allowed values as they are. -/
theorem oneLine_ofField (hindent : OneLine settings.indent) (level : Nat) (f : Field Shape) :
    OneLine ((Line.ofField level f).text settings) ↔
      ∀ t ∈ if settings.prettyPrint then (f.description.map Text.trim).toList ++ allowedOf f.type else [], OneLine t := by
  have hcolon : OneLine ": " := by decide
  have hempty : OneLine "" := by decide
  rw [Line.text, Line.before_ofField, Line.remark_ofField]
  simp only [oneLine_append, oneLine_indentation hindent, oneLine_literal, hcolon, true_and]
  split
  · exact oneLine_comment f.description f.type
  · exact iff_of_true hempty (List.forall_mem_nil _)

theorem oneLine_leaf {s : Shape} (hleaf : s.isLeaf = true) (level : Nat) (fieldName : String) {mark : String} (start : Line)
    (after : String) (hmark : OneLine mark) :
    (∀ l ∈ lines settings level fieldName mark start after s, OneLine (l.text settings)) ↔
      OneLine (start.text settings) ∧ OneLine after ∧ ∀ t ∈ shownTexts settings fieldName s, OneLine t := by
  rw [lines_leaf hleaf, List.forall_mem_singleton, oneLine_text_add, oneLine_append, oneLine_valueText, oneLine_append,
    and_iff_left hmark, oneLine_hint hleaf, shownTexts_leaf hleaf, List.forall_mem_cons, List.forall_mem_cons]
  tauto

mutual

/-- The lines of a shape have no line breaks in them if and only if the texts around it and its own texts have none. -/
theorem oneLine_lines (hindent : OneLine settings.indent) : ∀ {s : Shape} (level : Nat) (fieldName : String) {mark : String}
    (start : Line) (after : String), OneLine mark →
    ((∀ l ∈ lines settings level fieldName mark start after s, OneLine (l.text settings)) ↔
      OneLine (start.text settings) ∧ OneLine after ∧ ∀ t ∈ shownTexts settings fieldName s, OneLine t)
  | .array element _ _ _, level, fieldName, mark, start, after, hmark => by
    have hopen : OneLine "[" := by decide
    have hclose : OneLine "]" := by decide
    have hcomma : OneLine ", " := by decide
    rw [lines, oneLine_lines hindent level fieldName _ _ (oneLine_firstMark _ element), shownTexts, List.forall_mem_cons,
      oneLine_text_add, and_iff_left hopen]
    simp only [oneLine_append, hcomma, hclose, hmark, true_and, and_true]
    -- beside what the element shows already, the later elements show the name of the field only
    refine and_congr_right fun _ => ⟨?_, ?_⟩
    · rintro ⟨⟨⟨htwo, -⟩, hafter⟩, helement⟩
      exact ⟨hafter, (oneLine_laterElement helement (by decide)).mp htwo, helement⟩
    · rintro ⟨hafter, hname, helement⟩
      exact ⟨⟨⟨(oneLine_laterElement helement (by decide)).mpr hname, (oneLine_laterElement helement (by decide)).mpr hname⟩,
        hafter⟩, helement⟩
  | .object _ [], level, fieldName, mark, start, after, hmark => by
    have hopen : OneLine "\x7b" := by decide
    have hclose : OneLine "\x7d" := by decide
    rw [lines, List.forall_mem_singleton, oneLine_text_add, shownTexts, shownTextsOfFields]
    simp only [oneLine_append, hopen, hclose, hmark, true_and, List.not_mem_nil, false_implies, implies_true, and_true]
  | .object _ (f :: fields), level, _, mark, start, after, hmark => by
    have hopen : OneLine "\x7b" := by decide
    have hclose : OneLine "\x7d" := by decide
    rw [lines, List.forall_mem_append, List.forall_mem_cons, List.forall_mem_singleton, oneLine_linesOfFields hindent,
      shownTexts, Line.text_opening, Line.text_closing, Line.text]
    simp only [oneLine_append, hopen, hclose, hmark, oneLine_indentation hindent, true_and, and_true]
    tauto
  | .string _, level, fieldName, _, start, after, hmark | .scalar _ _, level, fieldName, _, start, after, hmark
  | .enum _ _, level, fieldName, _, start, after, hmark | .custom _, level, fieldName, _, start, after, hmark =>
    oneLine_leaf rfl level fieldName start after hmark

theorem oneLine_linesOfFields (hindent : OneLine settings.indent) : ∀ {fields : List (Field Shape)} (level : Nat),
    (∀ l ∈ linesOfFields settings level fields, OneLine (l.text settings)) ↔
      ∀ t ∈ shownTextsOfFields settings fields, OneLine t
  | [], _ => iff_of_true (List.forall_mem_nil _) (List.forall_mem_nil _)
  | ⟨name, type, description⟩ :: rest, level => by
    have hempty : OneLine "" := by decide
    have hcomma : OneLine (if rest.isEmpty then "" else ",") := by split <;> decide
    rw [linesOfFields, List.forall_mem_append, oneLine_lines hindent _ _ _ _ hempty, oneLine_linesOfFields hindent,
      shownTextsOfFields, List.forall_mem_append, List.forall_mem_append, and_iff_right hcomma, oneLine_ofField hindent]

end

/-! ### The whole sample -/

theorem linesText_pretty (hpretty : settings.prettyPrint = true) (ls : List Line) :
    linesText settings ls = (String.singleton '\n').intercalate (ls.map (Line.text settings)) := by
  rw [linesText, newline, if_pos hpretty]
  rfl

theorem oneLine_linesText_compact (hcompact : settings.prettyPrint = false) (ls : List Line) :
    OneLine (linesText settings ls) ↔ ∀ l ∈ ls, OneLine (l.text settings) := by
  have hempty : OneLine "" := by decide
  rw [linesText, newline, if_neg (ne_true_of_eq_false hcompact), oneLine_intercalate hempty, List.forall_mem_map]

/-- The line that a sample begins with. -/
def Line.first : Line := { level := 0, key? := none, ended? := none, value := "" }

theorem Line.before_first : Line.first.before settings = "" := by
  have hindent : indentation settings 0 = "" := by
    rw [indentation]
    split <;> rfl
  simp only [Line.before, Line.first, hindent, String.append_empty]

end Sample

/-- The lines of the whole sample. -/
def Shape.sampleLines (settings : SampleSettings) (s : Shape) : List Sample.Line :=
  Sample.lines settings 0 s.displayName "" .first "" s

open Sample
variable {settings : SampleSettings}

theorem sample_eq_linesText {s : Shape} {text : String} (h : s.sample settings = .ok text) :
    text = linesText settings (s.sampleLines settings) := by
  obtain ⟨front, rfl, hfront⟩ := linesText_lines h
  rw [Shape.sampleLines, hfront, Line.before_first]
  simp only [String.empty_append, String.append_empty, Line.remark, Line.first]

theorem oneLine_sampleLines (hindent : OneLine settings.indent) (s : Shape) :
    (∀ l ∈ s.sampleLines settings, OneLine (l.text settings)) ↔ ∀ t ∈ shownTexts settings s.displayName s, OneLine t := by
  have hempty : OneLine "" := by decide
  have hfirst : OneLine (Line.first.text settings) := by
    rw [Line.text, Line.before_first]
    exact hempty
  rw [Shape.sampleLines, oneLine_lines hindent 0 s.displayName .first "" hempty, and_iff_right hfirst, and_iff_right hempty]

/-- The sample of an object with fields, which there is if all kinds are known, is its lines. They stand in the rows of the
object: each has its indentation, then the key of a field or a brace, and at its end the comment of the field that ends there.
Nothing before the comments comes from a description. The sample comes apart into these very lines if and only if no text that
it shows unescaped has a line break in it; printed compactly, it is a single line under the same condition. -/
theorem sample_lines_iff {s : Shape} {name : String} {f : Field Shape} {fields : List (Field Shape)}
    (hroot : s = .object name (f :: fields)) (hindent : OneLine settings.indent) :
    ((∃ text, s.sample settings = .ok text) ↔ s.every Shape.isKnown = true) ∧
    (s.sampleLines settings).map Line.toRow = s.rows 0 ⟨0, none, none⟩ ∧
    (∀ l ∈ s.sampleLines settings, l.key? = none → l.value = "\x7b" ∨ IsClosing l.value) ∧
    (s.undescribed.sampleLines settings).map Line.value = (s.sampleLines settings).map Line.value ∧
    ∀ text, s.sample settings = .ok text →
      text = linesText settings (s.sampleLines settings) ∧
      (settings.prettyPrint = true →
        (Text.pieces '\n' text = (s.sampleLines settings).map (Line.text settings) ↔
          ∀ t ∈ shownTexts settings s.displayName s, OneLine t)) ∧
      (settings.prettyPrint = false → (OneLine text ↔ ∀ t ∈ shownTexts settings s.displayName s, OneLine t)) := by
  refine ⟨exists_shapeText_iff settings 0 s.displayName, map_toRow_lines .., ?_, ?_, fun text htext => ?_⟩
  · rw [hroot, Shape.sampleLines, lines, List.forall_mem_append, List.forall_mem_cons, List.forall_mem_singleton]
    exact ⟨⟨fun _ => .inl rfl, fun l hl h => .inr (isClosing_of_mem_linesOfFields l hl h)⟩, fun _ => .inr ⟨"", "", .inl rfl, rfl⟩⟩
  · have hname : s.undescribed.displayName = s.displayName := by cases s <;> rfl
    rw [Shape.sampleLines, hname]
    exact map_value_undescribed 0 s.displayName "" "" rfl
  · have hlines := sample_eq_linesText htext
    refine ⟨hlines, fun hpretty => ?_, fun hcompact => ?_⟩
    · rw [hlines, linesText_pretty hpretty, Text.pieces_intercalate_eq_iff, List.forall_mem_map, ← oneLine_sampleLines hindent]
      · rfl
      · exact fun h => lines_ne_nil _ _ _ _ _ _ (List.map_eq_nil_iff.mp h)
    · rw [hlines, oneLine_linesText_compact hcompact, oneLine_sampleLines hindent]

/-- An object in an array, with a description behind it. -/
theorem sample_lines_iff_items :
    ∃ (s : Shape) (name : String) (f : Field Shape) (fields : List (Field Shape)) (settings : SampleSettings) (text : String),
      s = .object name (f :: fields) ∧ OneLine settings.indent ∧ s.sample settings = .ok text ∧
      Text.pieces '\n' text = ["\x7b", "  \"items\": [\x7b", "    \"sku\": \"⟨string value⟩\"",
        "  \x7d, items_2, items_N] // What to send", "\x7d"] := by
  let item : Shape := .object "Item" [{ name := "sku", type := .string {} }]
  let f : Field Shape := { name := "items", type := .array item none none "array", description := some "What to send " }
  have hindent : OneLine (SampleSettings.ofBlanks 2).indent := by decide
  obtain ⟨hok, -, -, -, hsample⟩ := @sample_lines_iff (.ofBlanks 2) (.object "Order" [f]) "Order" f [] rfl hindent
  obtain ⟨text, htext⟩ := hok.mpr rfl
  obtain ⟨-, hpieces, -⟩ := hsample text htext
  refine ⟨.object "Order" [f], "Order", f, [], .ofBlanks 2, text, rfl, hindent, htext, ?_⟩
  rw [(hpieces rfl).mpr (by decide)]
  decide +kernel

/-- A line break in an allowed value breaks the line of a compact sample. -/
theorem compact_sample_breaks :
    ∃ (s : Shape) (settings : SampleSettings) (text : String), settings.prettyPrint = false ∧ OneLine settings.indent ∧
      s = .object "R" [{ name := "x", type := .string { allowed := ["a\nb"] } }] ∧
      s.sample settings = .ok text ∧ text = "\x7b\"x\": \"⟨a\nb⟩\"\x7d" ∧ ¬ OneLine text :=
  ⟨_, { SampleSettings.ofBlanks 2 with prettyPrint := false }, _, rfl, by decide, rfl, rfl, rfl, by decide⟩

end RecordGrammar
