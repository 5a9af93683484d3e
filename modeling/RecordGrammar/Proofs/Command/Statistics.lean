import RecordGrammar.Command.Display
import RecordGrammar.Proofs.Grammar.Added
import RecordGrammar.Proofs.Grammar.LineBreaks
import RecordGrammar.Proofs.Grammar.Order

/-!
# The statistics of a grammar

The statistics count the lines of the text of a grammar, and those among them whose names end like the name of a key rule.
`statistics_eq_iff`: these are the numbers of the rules and of the key rules just if no rule holds a line break and
no string has a rule of its own that is named like a key rule.
-/

namespace RecordGrammar
open Reading Text

/-! ### Lines -/

/-- The text does not end with a line break. -/
def EndsOpen (l : List Char) : Prop := ∀ c ∈ l.getLast?, isLineBreak c = false

namespace EndsOpen
variable {a b l rest : List Char} {c : Char}

theorem nil : EndsOpen [] := by
  intro c hc
  cases hc

theorem append (ha : EndsOpen a) (hb : EndsOpen b) : EndsOpen (a ++ b) := by
  intro c hc
  rw [List.getLast?_append] at hc
  cases hlast : b.getLast? with
  | none =>
    rw [hlast] at hc
    exact ha c hc
  | some d =>
    rw [hlast] at hc
    exact hb c (hlast ▸ hc)

theorem singleton (hc : isLineBreak c = false) : EndsOpen [c] := by
  intro d hd
  cases hd
  exact hc

theorem tail (h : EndsOpen (c :: l)) : EndsOpen l := by
  cases l with
  | nil => exact nil
  | cons d l =>
    intro x hx
    exact h x (by rwa [List.getLast?_cons_cons])

theorem of_forall (h : ∀ c ∈ l, isLineBreak c = false) : EndsOpen l := fun c hc => h c (List.mem_of_getLast? hc)

end EndsOpen

namespace Text
variable {l rest : List Char}

theorem splitLines_eq_nil_iff : splitLines l = [] ↔ l = [] := by
  fun_cases splitLines l <;> simp_all

theorem splitLines_cons_of_break {c : Char} (hc : isLineBreak c = true) (h : c = '\r' → l.head? ≠ some '\n') :
    splitLines (c :: l) = [] :: splitLines l := by
  rw [splitLines, if_pos hc]
  rintro cs rfl rfl
  exact h rfl rfl

/-- The lines with a character in front of them. -/
def pushLine (c : Char) : List (List Char) → List (List Char)
  | [] => [[c]]
  | line :: lines => (c :: line) :: lines

theorem splitLines_cons_of_not_break {c : Char} (hc : isLineBreak c = false) :
    splitLines (c :: l) = pushLine c (splitLines l) := by
  rw [splitLines, hc]
  · cases splitLines l <;> rfl
  · rintro cs rfl
    exact absurd hc (by decide)

/-- A line feed behind a text that ends with no line break starts the next line. -/
theorem splitLines_append (hne : l ≠ []) (h : EndsOpen l) : splitLines (l ++ '\n' :: rest) = splitLines l ++ splitLines rest := by
  have hbreak : isLineBreak '\n' = true := by decide
  -- wherever a line is cut, something is left of `l`: else it would end with the line break
  fun_induction splitLines l with
  | case1 => exact absurd rfl hne
  | case2 cs ih =>
    have hcs : cs ≠ [] := by
      rintro rfl
      exact absurd (h '\n' rfl) (by decide)
    have := ih hcs h.tail.tail
    rw [List.cons_append, List.cons_append, splitLines, this]
    rfl
  | case3 c cs hreturn hc ih =>
    have hcs : cs ≠ [] := by
      rintro rfl
      exact absurd (h c rfl) (by simp [hc])
    rw [List.cons_append, splitLines_cons_of_break hc, ih hcs h.tail, List.cons_append]
    intro heq hhead
    cases cs with
    | nil => exact hcs rfl
    | cons d cs =>
      cases hhead
      exact hreturn cs heq rfl
  | case4 c cs hreturn hc hlines ih =>
    obtain rfl := splitLines_eq_nil_iff.mp hlines
    have hhead : splitLines ('\n' :: rest) = [] :: splitLines rest := splitLines_cons_of_break hbreak (by simp)
    rw [List.cons_append, List.nil_append, splitLines_cons_of_not_break (by simpa using hc), hhead]
    rfl
  | case5 c cs hreturn hc line lines hlines ih =>
    have hcs : cs ≠ [] := by
      rintro rfl
      cases hlines
    rw [List.cons_append, splitLines_cons_of_not_break (by simpa using hc), ih hcs h.tail, hlines]
    rfl

theorem splitLines_of_not_break (hne : l ≠ []) (h : ∀ c ∈ l, isLineBreak c = false) : splitLines l = [l] := by
  induction l with
  | nil => exact absurd rfl hne
  | cons c l ih =>
    obtain ⟨hc, hl⟩ := List.forall_mem_cons.mp h
    rw [splitLines_cons_of_not_break hc]
    cases l with
    | nil => rfl
    | cons d l =>
      rw [ih (List.cons_ne_nil d l) hl]
      rfl

/-- A line break inside a text makes it more than one line. -/
theorem one_lt_length_splitLines (h : EndsOpen l) (hbreak : ∃ c ∈ l, isLineBreak c = true) : 1 < (splitLines l).length := by
  have hpos {cs : List Char} (hne : cs ≠ []) : 0 < (splitLines cs).length := by
    rw [List.length_pos_iff, ne_eq, splitLines_eq_nil_iff]
    exact hne
  fun_induction splitLines l with
  | case1 => simp at hbreak
  | case2 cs ih =>
    have hcs : cs ≠ [] := by
      rintro rfl
      exact absurd (h '\n' rfl) (by decide)
    simpa using hpos hcs
  | case3 c cs hreturn hc ih =>
    have hcs : cs ≠ [] := by
      rintro rfl
      exact absurd (h c rfl) (by simp [hc])
    simpa using hpos hcs
  | case4 c cs hreturn hc hlines ih =>
    obtain rfl := splitLines_eq_nil_iff.mp hlines
    simp [hc] at hbreak
  | case5 c cs hreturn hc line lines hlines ih =>
    have hrest : ∃ d ∈ cs, isLineBreak d = true := by simpa [hc] using hbreak
    have := ih h.tail hrest
    rwa [hlines] at this

/-- A text that does not end with a line break is one line if it has no other one either. -/
theorem length_splitLines_eq_one_iff (hne : l ≠ []) (h : EndsOpen l) :
    (splitLines l).length = 1 ↔ l.any isLineBreak = false := by
  rw [List.any_eq_false]
  constructor
  · intro hlen c hc hbreak
    have := one_lt_length_splitLines h ⟨c, hc, hbreak⟩
    omega
  · intro hall
    rw [splitLines_of_not_break hne fun c hc => by simpa using hall c hc, List.length_singleton]

/-- The lines of texts that are joined by line feeds and end with no line break are those of each of them. -/
theorem splitLines_intercalate {texts : List String} (h : ∀ s ∈ texts, s.toList ≠ [] ∧ EndsOpen s.toList) :
    splitLines ("\n".intercalate texts).toList = texts.flatMap fun s => splitLines s.toList := by
  induction texts with
  | nil => rfl
  | cons s texts ih =>
    obtain ⟨⟨hne, hopen⟩, hrest⟩ := List.forall_mem_cons.mp h
    cases texts with
    | nil => rw [String.intercalate_singleton, List.flatMap_singleton]
    | cons s' texts =>
      rw [String.intercalate_cons_cons, String.toList_append, String.toList_append, List.append_assoc]
      show splitLines (s.toList ++ '\n' :: ("\n".intercalate (s' :: texts)).toList) = _
      rw [splitLines_append hne hopen, ih hrest]
      rfl

end Text

/-! ### Rules on lines -/

/-- The text of a proper expression does not end with a line break. -/
theorem Expr.Readable.endsOpen {l : Place} {e : Expr} (h : e.Readable l) : EndsOpen e.chars := by
  -- but for names, rows and alternatives the last character is one of the notation
  have hlast {cs : List Char} {c : Char} (hc : isLineBreak c = false) (front : List Char) (hcs : cs = front ++ [c]) :
      EndsOpen cs := by
    intro d hd
    rw [hcs, List.getLast?_concat] at hd
    cases hd
    exact hc
  induction e generalizing l with
  | empty => exact .nil
  | literal s => exact hlast (c := '"') (by decide) _ rfl
  | cls k => exact hlast (c := ']') (by decide) _ rfl
  | rule n => exact .of_forall fun c hc => isLineBreak_of_isNameChar (h.2 c hc)
  | seq gap a b iha ihb =>
    have hmark : EndsOpen (seqMark gap) := by
      cases gap
      · exact .singleton (by decide)
      · exact .nil
    exact ((iha h.2.1).append hmark).append (ihb h.2.2.1)
  | alt gap a b iha ihb =>
    have hmark : EndsOpen (altMark gap a) := by
      unfold altMark
      split
      · exact hlast (c := ' ') (by decide) ['|'] rfl
      · exact hlast (c := ' ') (by decide) [' ', '|'] rfl
      · exact .singleton (by decide)
    exact ((iha h.2.1).append hmark).append (ihb h.2.2)
  | group e => exact hlast (c := ')') (by decide) _ rfl
  | repeated e times ih =>
    refine (ih h.1).append ?_
    cases times with
    | optional => exact .singleton (by decide)
    | some => exact .singleton (by decide)
    | exactly n => exact hlast (c := '\x7d') (by decide) _ rfl
    | between m n =>
      exact hlast (c := '\x7d') (by decide) ('\x7b' :: (toString m).toList ++ ',' :: (toString n).toList)
        (by simp [Times.chars])
  | raw s => exact h.elim

/-- Whether the name ends like that of the key rule of a field. -/
def isKeyName (n : String) : Bool := "-kv".toList.isSuffixOf n.toList

theorem isKeyName_iff {n : String} : isKeyName n = true ↔ ∃ p, n = keyName p := by
  rw [isKeyName, List.isSuffixOf_iff_suffix]
  constructor
  · rintro ⟨p, hp⟩
    refine ⟨String.ofList p, String.toList_inj.mp ?_⟩
    rw [String.toList_append, String.toList_ofList, hp]
  · rintro ⟨p, rfl⟩
    rw [String.toList_append]
    exact List.suffix_append _ _

namespace RuleTable
variable {t : RuleTable}

theorem any_ruleText {r : Rule} (hn : IsName r.1) : (ruleText r).toList.any isLineBreak = r.2.hasBreak := by
  have hname : r.1.toList.any isLineBreak = false := Expr.hasBreak_rule hn
  have hmark : " ::= ".toList.any isLineBreak = false := by decide
  rw [ruleText_toList, List.any_append, List.any_append, hname, hmark, Bool.false_or, Bool.false_or, Expr.hasBreak]

theorem endsOpen_ruleText {r : Rule} (hn : IsName r.1) (hb : r.2.Readable .choice) :
    (ruleText r).toList ≠ [] ∧ EndsOpen (ruleText r).toList := by
  have hname : EndsOpen r.1.toList := .of_forall fun c hc => isLineBreak_of_isNameChar (hn.2 c hc)
  have hmark : EndsOpen " ::= ".toList := by
    intro c hc
    cases hc
    decide
  rw [ruleText_toList]
  refine ⟨?_, (hname.append hmark).append hb.endsOpen⟩
  intro hnil
  exact hn.1 (List.append_eq_nil_iff.mp (List.append_eq_nil_iff.mp hnil).1).1

/-- The lines of rules. -/
def lines (rules : List Rule) : List (List Char) := rules.flatMap fun r => splitLines (ruleText r).toList

theorem splitLines_render (h : t.Proper) : splitLines t.render.toList = lines t.rules := by
  rw [render, splitLines_intercalate, List.flatMap_map]
  · rfl
  · rw [List.forall_mem_map]
    exact fun r hr => endsOpen_ruleText (h r hr).1 (h r hr).2

/-- Proper rules have as many lines as they are if none holds a line break, and more if one does. -/
theorem length_lines {rules : List Rule} (h : ∀ r ∈ rules, IsName r.1 ∧ r.2.Readable .choice) :
    rules.length ≤ (lines rules).length ∧ ((lines rules).length = rules.length ↔ ¬ ∃ r ∈ rules, r.2.hasBreak = true) := by
  induction rules with
  | nil => simp [lines]
  | cons r rules ih =>
    obtain ⟨⟨hn, hb⟩, hrest⟩ := List.forall_mem_cons.mp h
    obtain ⟨hle, hiff⟩ := ih hrest
    obtain ⟨hne, hopen⟩ := endsOpen_ruleText hn hb
    have hone := length_splitLines_eq_one_iff hne hopen
    have hpos : 0 < (splitLines (ruleText r).toList).length := by
      rw [List.length_pos_iff, ne_eq, splitLines_eq_nil_iff]
      exact hne
    have hlength : (lines (r :: rules)).length = (splitLines (ruleText r).toList).length + (lines rules).length := by
      rw [lines, List.flatMap_cons, List.length_append, lines]
    rw [any_ruleText hn] at hone
    rw [hlength, List.length_cons, List.exists_mem_cons_iff, not_or, Bool.not_eq_true, ← hone, ← hiff]
    omega

/-- Proper rules of which none holds a line break are their lines. -/
theorem lines_eq_map {rules : List Rule} (h : ∀ r ∈ rules, IsName r.1 ∧ r.2.Readable .choice)
    (hbreak : ¬ ∃ r ∈ rules, r.2.hasBreak = true) : lines rules = rules.map fun r => (ruleText r).toList := by
  induction rules with
  | nil => rfl
  | cons r rules ih =>
    obtain ⟨⟨hn, hb⟩, hrest⟩ := List.forall_mem_cons.mp h
    rw [List.exists_mem_cons_iff, not_or, Bool.not_eq_true, ← any_ruleText hn] at hbreak
    have hone : splitLines (ruleText r).toList = [(ruleText r).toList] :=
      splitLines_of_not_break (endsOpen_ruleText hn hb).1 fun c hc => by simpa using List.any_eq_false.mp hbreak.1 c hc
    have := ih hrest hbreak.2
    rw [lines] at this ⊢
    rw [List.flatMap_cons, hone, this, List.map_cons, List.singleton_append]

theorem isFieldRule_ruleText {r : Rule} (hn : IsName r.1) : Command.Display.isFieldRule (ruleText r).toList = isKeyName r.1 := by
  have hname {name : List Char} (h : ∀ c ∈ name, isNameChar c = true) (rest : List Char) :
      Command.Display.ruleName (name ++ " ::= ".toList ++ rest) = name := by
    induction name with
    | nil => rfl
    | cons c name ih =>
      obtain ⟨hc, hrest⟩ := List.forall_mem_cons.mp h
      rw [List.cons_append, List.cons_append, Command.Display.ruleName, ih hrest]
      rintro _ rfl -
      exact absurd hc (by decide)
  rw [Command.Display.isFieldRule, ruleText_toList, hname hn.2, isKeyName]

theorem countP_lines {t : RuleTable} (h : t.Proper) (hbreak : ¬ t.HasBreak) :
    (lines t.rules).countP Command.Display.isFieldRule = t.names.countP isKeyName := by
  rw [lines_eq_map h hbreak, names, List.countP_map, List.countP_map]
  exact List.countP_congr fun r hr => by rw [Function.comp_apply, isFieldRule_ruleText (h r hr).1, Function.comp_apply]

end RuleTable

/-! ### Key rules -/

variable {settings : GrammarSettings} {shape : Shape} {table : RuleTable}

/-- The names of the rules that the compiler adds for fields of objects. -/
def keyRules (settings : GrammarSettings) (shape : Shape) : Set String :=
  {n | ∃ pos i s p t, Visits settings shape "root" (seedTable settings) (pos ++ [Step.field i]) s p t ∧ n = keyName p}

/-- The path of a string with a rule of its own. -/
def IsStringRule (settings : GrammarSettings) (shape : Shape) (n : String) : Prop :=
  ∃ pos text t, Visits settings shape "root" (seedTable settings) pos (.string text) n t ∧ ¬ text.Plain

/-- The rules that are named like key rules are these and those of strings with such a path. -/
theorem mem_names_isKeyName_iff (h : (shape.grammar settings).1 = .ok table) {n : String} :
    n ∈ table.names ∧ isKeyName n = true ↔
      n ∈ keyRules settings shape ∨ IsStringRule settings shape n ∧ isKeyName n = true := by
  obtain ⟨e, t, hc, rfl⟩ := exists_compiles_of_grammar h
  have hmem {pos : Position} (hadds : Adds settings shape "root" (seedTable settings) pos n) :
      n ∈ (finishTable settings e t).names :=
    (finishTable_extends e t).mem_names (hadds.mem_names hc root_not_mem_seedTable).2
  constructor
  · rintro ⟨hn, hkey⟩
    rcases mem_names_finishTable hn with hn | rfl | rfl
    · rcases hc.adds hn with hn | ⟨pos, hadds⟩
      · have hseed : ["char", "space", "think-safe-lt", "think-char", "think-content"].all (!isKeyName ·) = true := by decide
        have := List.all_eq_true.mp hseed n (mem_names_seedTable hn)
        rw [hkey] at this
        cases this
      · cases hadds with
        | string hv hnamed => exact .inr ⟨⟨_, _, _, hv, hnamed⟩, hkey⟩
        | element =>
          obtain ⟨p, hp⟩ := isKeyName_iff.mp hkey
          exact absurd hp itemName_ne_keyName
        | key hv => exact .inl ⟨_, _, _, _, _, hv, rfl⟩
    · cases hkey
    · cases hkey
  · rintro (⟨pos, i, s, p, u, hv, rfl⟩ | ⟨⟨pos, text, u, hv, hnamed⟩, hkey⟩)
    · exact ⟨hmem (.key hv), isKeyName_iff.mpr ⟨p, rfl⟩⟩
    · exact ⟨hmem (.string hv hnamed), hkey⟩

/-- The rule of a string is no key rule, since each rule is added for one position only. -/
theorem IsStringRule.not_mem_keyRules (h : (shape.grammar settings).1 = .ok table) {n : String}
    (hn : IsStringRule settings shape n) : n ∉ keyRules settings shape := by
  rintro ⟨pos, i, s, p, t, hv, rfl⟩
  obtain ⟨pos', text, t', hv', hnamed⟩ := hn
  obtain ⟨e, t₀, hc, -⟩ := exists_compiles_of_grammar h
  have hpos := (Adds.string hv' hnamed).pos_eq hc root_not_mem_seedTable (.key hv)
  subst hpos
  exact keyName_ne_self (hv'.det hv).2.1

/-- As many rules as there are key rules are named like these just if no string has a rule of such a name. -/
theorem countP_isKeyName_iff (h : (shape.grammar settings).1 = .ok table) :
    table.names.countP isKeyName = (keyRules settings shape).ncard ↔
      ∀ n, IsStringRule settings shape n → isKeyName n = false := by
  have hnodup : table.names.Nodup := by
    obtain ⟨e, t, hc, rfl⟩ := exists_compiles_of_grammar h
    exact (ordered_finishTable hc).1.nodup
  have hcount : table.names.countP isKeyName = {n | n ∈ table.names ∧ isKeyName n = true}.ncard := by
    rw [List.countP_eq_length_filter, ← List.toFinset_card_of_nodup (hnodup.filter _), ← Set.ncard_coe_finset]
    congr 1
    ext n
    simp
  -- the key rules are among the rules that are named so: the numbers are the same just if the sets are
  have hsubset : keyRules settings shape ⊆ {n | n ∈ table.names ∧ isKeyName n = true} := fun n hn =>
    (mem_names_isKeyName_iff h).mpr (.inl hn)
  have hfinite : {n | n ∈ table.names ∧ isKeyName n = true}.Finite :=
    table.names.finite_toSet.subset fun n hn => hn.1
  rw [hcount]
  constructor
  · intro heq n hn
    rw [← Bool.not_eq_true]
    intro hkey
    have hall := Set.eq_of_subset_of_ncard_le hsubset heq.le hfinite
    have hmem : n ∈ keyRules settings shape := by
      rw [hall]
      exact (mem_names_isKeyName_iff h).mpr (.inr ⟨hn, hkey⟩)
    exact hn.not_mem_keyRules h hmem
  · intro hnone
    congr 1
    refine Set.Subset.antisymm ?_ hsubset
    intro n hn
    rcases (mem_names_isKeyName_iff h).mp hn with hn | ⟨hn, hkey⟩
    · exact hn
    · rw [hnone n hn] at hkey
      cases hkey

/-! ### The table -/

namespace Command.Display

/-- The table of statistics with these numbers of rules, of key rules and of characters. -/
def statisticsTable (entry : String) (rules keys size : Nat) : List String :=
  let row (label value : String) : String :=
    "│ " ++ String.ofList (Text.padTo 20 label.toList) ++ " │ " ++ String.ofList (Text.padTo 30 value.toList) ++ " │"
  ["",
   "                   Grammar Statistics",
   "┏━━━━━━━━━━━━━━━━━━━━━━┳━━━━━━━━━━━━━━━━━━━━━━━━━━━━━━━━┓",
   "┃ Metric               ┃ Value                          ┃",
   "┡━━━━━━━━━━━━━━━━━━━━━━╇━━━━━━━━━━━━━━━━━━━━━━━━━━━━━━━━┩",
   row "Entry Rule" entry,
   row "Rules" (toString rules),
   row "Field Rules" (toString keys),
   row "Size" (toString size ++ " chars"),
   "└──────────────────────┴────────────────────────────────┘",
   ""]

theorem statistics_eq (grammar entry : String) : statistics grammar entry =
    statisticsTable entry (splitLines grammar.toList).length ((splitLines grammar.toList).countP isFieldRule) grammar.length := rfl

theorem padTo_toString_inj {m n k : Nat} (h : padTo k (toString m).toList = padTo k (toString n).toList) : m = n := by
  have hdigits (n : Nat) : (padTo k (toString n).toList).takeWhile Char.isDigit = (toString n).toList := by
    rw [padTo, List.takeWhile_append_of_pos fun c hc => isDigit_of_mem_toString hc]
    cases k - width (toString n).toList with
    | zero => simp
    | succ j => simp [List.replicate_succ]
  refine toString_nat_inj (String.toList_inj.mp ?_)
  rw [← hdigits m, h, hdigits n]

/-- The table tells the numbers that it was made of. -/
theorem statisticsTable_inj {entry : String} {rules keys rules' keys' size : Nat} :
    statisticsTable entry rules keys size = statisticsTable entry rules' keys' size ↔ rules = rules' ∧ keys = keys' := by
  constructor
  · intro h
    simp only [statisticsTable, List.cons.injEq, String.append_left_inj, String.append_right_inj, String.ofList_inj, true_and,
      and_true] at h
    exact ⟨padTo_toString_inj h.1, padTo_toString_inj h.2⟩
  · rintro ⟨rfl, rfl⟩
    rfl

end Command.Display

/-- The statistics of a grammar without raw formats count the rules and the key rules just if no line break comes into
the grammar and no string with a rule of its own has a path that is named like a key rule. -/
theorem statistics_eq_iff (h : (shape.grammar settings).1 = .ok table) (hraws : shape.every Shape.hasNoRawFormat = true) :
    Command.Display.statistics table.render settings.entryRule =
      Command.Display.statisticsTable settings.entryRule table.size (keyRules settings shape).ncard table.render.length ↔
    settings.breaksLine = false ∧ ∀ pos s p t, Visits settings shape "root" (seedTable settings) pos s p t →
      s.breaksLine = false ∧ ∀ text, s = .string text → ¬ text.Plain → ∀ q, p ≠ keyName q := by
  obtain ⟨-, hproper⟩ := proper_of_grammar h hraws
  have hlength : (RuleTable.lines table.rules).length = table.size ↔ ¬ table.HasBreak := (RuleTable.length_lines hproper).2
  -- only where the lines are the rules are the names on them those of the rules
  have hcount (hlen : (RuleTable.lines table.rules).length = table.size) :
      (RuleTable.lines table.rules).countP Command.Display.isFieldRule = (keyRules settings shape).ncard ↔
        ∀ n, IsStringRule settings shape n → isKeyName n = false := by
    rw [RuleTable.countP_lines hproper (hlength.mp hlen), countP_isKeyName_iff h]
  rw [Command.Display.statistics_eq, RuleTable.splitLines_render hproper, Command.Display.statisticsTable_inj,
    and_congr_right hcount, hlength, hasBreak_iff h hraws, not_or, Bool.not_eq_true]
  constructor
  · rintro ⟨⟨hsettings, hshapes⟩, hstrings⟩
    refine ⟨hsettings, fun pos s p t hv => ⟨?_, ?_⟩⟩
    · rw [← Bool.not_eq_true]
      exact fun hbreak => hshapes ⟨pos, s, p, t, hv, hbreak⟩
    · rintro text rfl hnamed q rfl
      have hkey := hstrings (keyName q) ⟨pos, text, t, hv, hnamed⟩
      rw [isKeyName_iff.mpr ⟨q, rfl⟩] at hkey
      cases hkey
  · rintro ⟨hsettings, hall⟩
    refine ⟨⟨hsettings, ?_⟩, ?_⟩
    · rintro ⟨pos, s, p, t, hv, hbreak⟩
      rw [(hall pos s p t hv).1] at hbreak
      cases hbreak
    · rintro n ⟨pos, text, t, hv, hnamed⟩
      rw [← Bool.not_eq_true, isKeyName_iff]
      rintro ⟨q, rfl⟩
      exact (hall _ _ _ _ hv).2 text rfl hnamed q rfl

/-- Line feeds in a delimiter and in a value are escaped, and the field `kv` has no rule besides its key rule. -/
theorem statistics_eq_iff_choice :
    (Shape.object "R" [⟨"kv", .enum "E" ["a\nb"], none⟩]).every Shape.hasNoRawFormat = true ∧
    ∃ table, ((Shape.object "R" [⟨"kv", .enum "E" ["a\nb"], none⟩]).grammar
        { delimiters := { opening := '\n', closing := '>' } }).1 = .ok table ∧
      Command.Display.statistics table.render "root" = Command.Display.statisticsTable "root" table.size
        (keyRules { delimiters := { opening := '\n', closing := '>' } } (.object "R" [⟨"kv", .enum "E" ["a\nb"], none⟩])).ncard
        table.render.length := by
  have hraws : (Shape.object "R" [⟨"kv", .enum "E" ["a\nb"], none⟩]).every Shape.hasNoRawFormat = true := by decide
  have hgrammar : ∃ table, ((Shape.object "R" [⟨"kv", .enum "E" ["a\nb"], none⟩]).grammar
      { delimiters := { opening := '\n', closing := '>' } }).1 = .ok table := ⟨_, rfl⟩
  obtain ⟨table, h⟩ := hgrammar
  refine ⟨hraws, table, h, (statistics_eq_iff h hraws).mpr ⟨by decide, fun pos s p t hv => ?_⟩⟩
  cases hv with
  | here => exact ⟨by decide, fun text ht => by cases ht⟩
  | field hreach hv =>
    cases hreach with
    | head =>
      cases hv
      exact ⟨by decide, fun text ht => by cases ht⟩
    | tail _ _ hreach => cases hreach

theorem keyRules_kv : keyRules {} (.object "R" [⟨"kv", .string { allowed := ["a\u2028b"] }, none⟩]) = {"root-kv-kv"} := by
  ext n
  constructor
  · rintro ⟨pos, i, s, p, t, hv, rfl⟩
    obtain ⟨name, fields, q, t₀, f, hobject, hreach, -⟩ := hv.of_field
    cases hobject with
    | here =>
      cases hreach with
      | head => rfl
      | tail _ _ hreach => cases hreach
    | field hreach' hv' =>
      cases hreach' with
      | head => cases hv'
      | tail _ _ hreach => cases hreach
  · rintro rfl
    exact ⟨[], 0, _, _, _, .field .head .here, rfl⟩

/-- A line separator in a value of the field `kv`: five rules are counted as six, and its key rule as two. -/
theorem statistics_miscounts :
    (Shape.object "R" [⟨"kv", .string { allowed := ["a\u2028b"] }, none⟩]).every Shape.hasNoRawFormat = true ∧
    ∃ table, ((Shape.object "R" [⟨"kv", .string { allowed := ["a\u2028b"] }, none⟩]).grammar {}).1 = .ok table ∧
      table.size = 5 ∧ (keyRules {} (.object "R" [⟨"kv", .string { allowed := ["a\u2028b"] }, none⟩])).ncard = 1 ∧
      Command.Display.statistics table.render "root" = Command.Display.statisticsTable "root" 6 2 table.render.length ∧
      ∀ size, Command.Display.statisticsTable "root" 6 2 size ≠ Command.Display.statisticsTable "root" 5 1 size := by
  have hraws : (Shape.object "R" [⟨"kv", .string { allowed := ["a\u2028b"] }, none⟩]).every Shape.hasNoRawFormat = true := by
    decide
  have h : ((Shape.object "R" [⟨"kv", .string { allowed := ["a\u2028b"] }, none⟩]).grammar {}).1 =
      .ok ((((seedTable {}).push "root-kv" (.anyText ["a\u2028b"])).push "root-kv-kv" (fieldExpr "kv" (.rule "root-kv"))).push
        "root" (objectExpr ["root-kv-kv"])) := by rfl
  refine ⟨hraws, _, h, by rfl, ?_, ?_, fun size => ?_⟩
  · rw [keyRules_kv, Set.ncard_singleton]
  · rw [Command.Display.statistics_eq, Command.Display.statisticsTable_inj,
      RuleTable.splitLines_render (proper_of_grammar h hraws).2]
    simp only [RuleTable.lines, RuleTable.ruleText_toList]
    decide +kernel
  · rw [ne_eq, Command.Display.statisticsTable_inj]
    decide

end RecordGrammar
