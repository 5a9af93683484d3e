import RecordGrammar.Proofs.Grammar.Order
import RecordGrammar.Proofs.Grammar.TwoRuns

/-!
# Grammars with and without a thinking block

`thinking_conservative`: a thinking block adds its three rules behind the first two and its entry rule at the end, and changes
nothing else, not even the error if there is one. The run over the shape asks only for names under `root`, which the rules put
between have not (`Mirrors`).
-/

namespace RecordGrammar
open Reading Compiling

/-- The settings with a thinking block between these markers. -/
def GrammarSettings.withThinking (settings : GrammarSettings) (start : String) (stop : EndMarker) (maxLength : Nat)
    (hstart : start ≠ "") : GrammarSettings :=
  { settings with
    includeThinking := true, thinkingStart := start, thinkingEnd := stop, maxThinkingLength := maxLength,
    thinkingStart_ne_empty := hstart }

/-- The name of the whole shape's rule, or one under it. -/
def Rooted (n : String) : Prop := n = "root" ∨ Under "root" n

theorem Rooted.under {p n : String} (h : Rooted p) (hn : Under p n) : Rooted n := by
  rcases h with rfl | h
  · exact .inr hn
  · exact .inr (h.trans hn)

/-! ### Tables side by side -/

/-- The second table is the first one with rules put between. -/
def Beside (first block : List Rule) (t u : RuleTable) : Prop :=
  ∃ rest, t.rules = first ++ rest ∧ u.rules = first ++ block ++ rest

section
variable {first block : List Rule} {t u : RuleTable} {n : String}

namespace Beside

theorem push (h : Beside first block t u) (name : String) (body : Expr) : Beside first block (t.push name body) (u.push name body) := by
  obtain ⟨rest, ht, hu⟩ := h
  refine ⟨rest ++ [(name, body)], ?_, ?_⟩
  · rw [RuleTable.push, ht, List.append_assoc]
  · rw [RuleTable.push, hu, List.append_assoc]

theorem contains (h : Beside first block t u) (hn : n ∉ block.map (·.1)) : t.contains n = u.contains n := by
  obtain ⟨rest, ht, hu⟩ := h
  rw [Bool.eq_iff_iff, RuleTable.contains_iff, RuleTable.contains_iff, RuleTable.names, RuleTable.names, ht, hu]
  simp only [List.map_append, List.mem_append, hn, or_false]

theorem ensure (h : Beside first block t u) (hn : n ∉ block.map (·.1)) (body : Expr) :
    Beside first block (t.ensure n body) (u.ensure n body) := by
  rw [RuleTable.ensure, RuleTable.ensure, ← h.contains hn]
  split
  · exact h
  · exact h.push n body

end Beside

/-- The steps come to the same, and leave tables side by side that were so. -/
def Mirrors (first block : List Rule) {α : Type} (x y : Compiling α) : Prop :=
  ∀ p q, Beside first block p.table q.table →
    (x.exec p).1 = (y.exec q).1 ∧ Beside first block (x.exec p).2.table (y.exec q).2.table

namespace Mirrors
variable {α β : Type} {x y : Compiling α} {f g : α → Compiling β}

theorem pure (a : α) : Mirrors first block (pure a) (pure a) := fun _ _ h => ⟨rfl, h⟩

theorem throw (e : GrammarError) : Mirrors first block (throw e : Compiling α) (throw e) := fun _ _ h => ⟨rfl, h⟩

theorem note (ns : List Notice) : Mirrors first block (note ns) (note ns) := fun _ _ h => ⟨rfl, h⟩

theorem hasRule (hn : n ∉ block.map (·.1)) : Mirrors first block (hasRule n) (hasRule n) := fun _ _ h =>
  ⟨congrArg Except.ok (h.contains hn), h⟩

theorem addRule (hn : n ∉ block.map (·.1)) (body : Expr) : Mirrors first block (addRule n body) (addRule n body) := by
  intro p q h
  rw [exec_addRule, exec_addRule, ← h.contains hn]
  split
  · exact ⟨rfl, h⟩
  · exact ⟨rfl, h.push n body⟩

theorem ensureRule (hn : n ∉ block.map (·.1)) (body : Expr) : Mirrors first block (ensureRule n body) (ensureRule n body) := by
  intro p q h
  obtain ⟨_, hp⟩ := exec_ensureRule n body p
  obtain ⟨_, hq⟩ := exec_ensureRule n body q
  rw [hp, hq]
  exact ⟨rfl, h.ensure hn body⟩

theorem bind (hx : Mirrors first block x y) (hf : ∀ a, Mirrors first block (f a) (g a)) :
    Mirrors first block (x >>= f) (y >>= g) := by
  intro p q h
  have hafter := hx p q h
  rw [exec_bind, exec_bind]
  generalize x.exec p = r at hafter ⊢
  generalize y.exec q = r' at hafter ⊢
  obtain ⟨res, p'⟩ := r
  obtain ⟨_, q'⟩ := r'
  obtain ⟨rfl, htables⟩ := hafter
  cases res with
  | error e => exact ⟨rfl, htables⟩
  | ok a => exact hf a p' q' htables

end Mirrors

/-! ### The compiler -/

/-- Where no candidate is among the rules put between, the search for a path ends at the same one. -/
theorem Beside.fieldPath {path : String} (h : Beside first block t u) (hblock : ∀ n, Rooted n → n ∉ block.map (·.1))
    (hpath : Rooted path) (used : List String) (name : String) : fieldPath t used path name = fieldPath u used path name := by
  have hsame : ∀ i, isFreePath u used (pathCandidate (path ++ "-" ++ Segment.ofName name) i) =
      isFreePath t used (pathCandidate (path ++ "-" ++ Segment.ofName name) i) := by
    intro i
    have hcandidate := hpath.under (.candidate path name i)
    rw [isFreePath, isFreePath, ← h.contains (hblock _ hcandidate), ← h.contains (hblock _ (hcandidate.under (.key _)))]
  exact (searches_iff.mp ((searches_iff.mpr rfl).congr hsame)).symm

variable {settings : GrammarSettings} {start : String} {stop : EndMarker} {maxLength : Nat} {hstart : start ≠ ""}

theorem compileString_mirrors {path : String} (hpath : path ∉ block.map (·.1)) (text : StringShape) :
    Mirrors first block (compileString settings text path)
      (compileString (settings.withThinking start stop maxLength hstart) text path) := by
  rcases text.cases with hv | hplain | ⟨f, hf⟩
  · rw [StringShape.compileString_values hv, StringShape.compileString_values hv]
    exact .ensureRule hpath _
  · intro p q h
    obtain ⟨_, hp⟩ := StringShape.exec_compileString_plain settings path p hplain
    obtain ⟨_, hq⟩ := StringShape.exec_compileString_plain (settings.withThinking start stop maxLength hstart) path q hplain
    rw [hp, hq]
    exact ⟨rfl, h⟩
  · have hcompile : f.compile (settings.withThinking start stop maxLength hstart) = f.compile settings := by
      cases f <;> rfl
    rw [StringShape.compileString_format hf, StringShape.compileString_format hf, hcompile]
    match f.compile settings with
    | .error e => exact .throw e
    | .ok (body, ns) => exact (Mirrors.note ns).bind fun _ => .ensureRule hpath body

theorem arrayLimits_mirrors (lo hi : Option Nat) (path : String) :
    Mirrors first block (arrayLimits settings lo hi path)
      (arrayLimits (settings.withThinking start stop maxLength hstart) lo hi path) := by
  change Mirrors first block (arrayLimits settings lo hi path) (arrayLimits settings lo hi path)
  rw [arrayLimits]
  simp only
  split
  · split
    · exact .throw _
    · exact (Mirrors.note _).bind fun _ => .pure _
  · exact .pure _

theorem mirrors_relates (hblock : ∀ n, Rooted n → n ∉ block.map (·.1)) :
    Relates (fun _ => Mirrors first block) Rooted settings (settings.withThinking start stop maxLength hstart) where
  item h := h.under (.item _)
  key h := h.under (.key _)
  field h t used name := h.under (.field t used _ name)
  pure := .pure
  unknownKind _ := .throw _
  bind := .bind
  hasRule h := .hasRule (hblock _ h)
  addRule h := .addRule (hblock _ h)
  ensureRule h := .ensureRule (hblock _ h)
  string h := compileString_mirrors (hblock _ h)
  limits := arrayLimits_mirrors
  atField h used name _ _ hf := by
    intro p q hbeside
    rw [exec_bind, exec_bind, exec_get, exec_get]
    simp only
    rw [← hbeside.fieldPath hblock h]
    exact hf _ (h.under (.field p.table used _ name)) p q hbeside

end

/-! ### Whole grammars -/

section
variable {settings : GrammarSettings} {start : String} {stop : EndMarker} {maxLength : Nat}

/-- The rules that a grammar starts with, with a thinking block or without. -/
def tokenRules (settings : GrammarSettings) : List Rule := [("char", charBody settings.delimiters), ("space", spaceBody)]

/-- The names of the rules of a thinking block. -/
abbrev thinkingNames : List String := ["think-safe-lt", "think-char", "think-content", "thinking-root"]

theorem names_thinkingRules (stop : EndMarker) (maxLength : Nat) :
    (thinkingRules stop maxLength).map (·.1) = ["think-safe-lt", "think-char", "think-content"] := rfl

theorem Rooted.not_mem_thinkingNames {n : String} (h : Rooted n) : n ∉ thinkingNames := by
  rcases h with rfl | ⟨r, rfl⟩
  · decide
  · intro hn
    simp only [List.mem_cons, List.not_mem_nil, or_false] at hn
    rcases hn with h | h | h | h <;> simpa using congrArg (·.toList.head?) h

theorem Rooted.not_mem_thinkingRules {n : String} (h : Rooted n) : n ∉ (thinkingRules stop maxLength).map (·.1) := fun hn =>
  h.not_mem_thinkingNames <| by
    rw [names_thinkingRules] at hn
    simp only [List.mem_cons, List.not_mem_nil, or_false] at hn ⊢
    rcases hn with rfl | rfl | rfl <;> simp

theorem seedTable_beside (hs : settings.includeThinking = false) (hstart : start ≠ "") :
    Beside (tokenRules settings) (thinkingRules stop maxLength) (seedTable settings)
      (seedTable (settings.withThinking start stop maxLength hstart)) := by
  refine ⟨[], ?_, ?_⟩
  · simp [seedTable, tokenRules, hs]
  · simp [seedTable, tokenRules, GrammarSettings.withThinking]

theorem Beside.finish {t u : RuleTable} (h : Beside (tokenRules settings) (thinkingRules stop maxLength) t u)
    (hs : settings.includeThinking = false) (hstart : start ≠ "") (e : Expr) :
    ∃ rest, (finishTable settings e t).rules = tokenRules settings ++ rest ∧
      (finishTable (settings.withThinking start stop maxLength hstart) e u).rules =
        tokenRules settings ++ thinkingRules stop maxLength ++ rest ++ [("thinking-root", thinkingEntry start stop.text)] := by
  have hroot : Beside (tokenRules settings) (thinkingRules stop maxLength) (if e = .rule "root" then t else t.push "root" e)
      (if e = .rule "root" then u else u.push "root" e) := by
    split
    · exact h
    · exact h.push "root" e
  obtain ⟨rest, ht, hu⟩ := hroot
  refine ⟨rest, ?_, ?_⟩
  · simp only [finishTable, hs, Bool.false_eq_true, ↓reduceIte]
    exact ht
  · simp only [finishTable, GrammarSettings.withThinking, ↓reduceIte, RuleTable.push]
    exact congrArg (· ++ _) hu

/-- With a thinking block the run over a shape ends in the same error, or the grammar gets the rules of the block. -/
theorem grammar_withThinking (hs : settings.includeThinking = false) (hstart : start ≠ "") (stop : EndMarker) (maxLength : Nat)
    (shape : Shape) :
    match (shape.grammar settings).1 with
    | .error e => (shape.grammar (settings.withThinking start stop maxLength hstart)).1 = .error e
    | .ok table => ∃ rest, table.rules = tokenRules settings ++ rest ∧
        (shape.grammar (settings.withThinking start stop maxLength hstart)).1 = .ok ⟨tokenRules settings ++
          thinkingRules stop maxLength ++ rest ++ [("thinking-root", thinkingEntry start stop.text)]⟩ := by
  have hrelates : Relates (fun _ => Mirrors (tokenRules settings) (thinkingRules stop maxLength)) Rooted settings
      (settings.withThinking start stop maxLength hstart) := mirrors_relates fun _ h => h.not_mem_thinkingRules
  have hafter := hrelates.compileShape shape (.inl rfl) ⟨seedTable settings, []⟩
    ⟨seedTable (settings.withThinking start stop maxLength hstart), []⟩ (seedTable_beside hs hstart)
  rw [grammar_fst, grammar_fst]
  generalize (compileShape settings shape "root").exec _ = r at hafter ⊢
  generalize (compileShape (settings.withThinking start stop maxLength hstart) shape "root").exec _ = r' at hafter ⊢
  obtain ⟨res, p⟩ := r
  obtain ⟨_, q⟩ := r'
  obtain ⟨rfl, htables⟩ := hafter
  cases res with
  | error e => rfl
  | ok e =>
    obtain ⟨rest, ht, hu⟩ := htables.finish hs hstart e
    exact ⟨rest, ht, congrArg (fun rules => Except.ok (RuleTable.mk rules)) hu⟩

/-! ### What the rules mean -/

/-- No rule refers to one of a thinking block. -/
def RuleTable.AvoidsThinking (t : RuleTable) : Prop := ∀ r ∈ t.rules, ∀ n ∈ r.2.ruleNames, n ∉ thinkingNames

/-- Rules of a thinking block make no difference to rules that do not refer to them. -/
theorem derives_withThinking {first block rest : List Rule} {entry : Rule} (havoids : RuleTable.AvoidsThinking ⟨first ++ rest⟩)
    (hblock : ∀ n ∉ thinkingNames, n ∉ (block ++ [entry]).map (·.1)) {n : String} (hn : n ∉ thinkingNames) {w : List Char} :
    Expr.Derives (RuleTable.body? ⟨first ++ rest⟩) (.rule n) w ↔
      Expr.Derives (RuleTable.body? ⟨first ++ block ++ rest ++ [entry]⟩) (.rule n) w := by
  have hsame : ∀ n, n ∉ thinkingNames →
      RuleTable.body? ⟨first ++ rest⟩ n = RuleTable.body? ⟨first ++ block ++ rest ++ [entry]⟩ n := by
    intro n hn
    have hnew : (⟨block⟩ : RuleTable).body? n = none ∧ (⟨[entry]⟩ : RuleTable).body? n = none := by
      have := hblock n hn
      rw [List.map_append, List.mem_append, not_or] at this
      exact ⟨RuleTable.body?_eq_none this.1, RuleTable.body?_eq_none this.2⟩
    simp only [RuleTable.body?] at hnew ⊢
    simp only [List.lookup_append, hnew, Option.or_none]
  have hnamed : ∀ m b, m ∉ thinkingNames → RuleTable.body? ⟨first ++ rest⟩ m = some b → ∀ k ∈ b.ruleNames, k ∉ thinkingNames :=
    fun m b _ hb => havoids _ (RuleTable.mem_rules_of_body? hb)
  have hroot : ∀ m ∈ (Expr.rule n).ruleNames, m ∉ thinkingNames := fun m hm => List.mem_singleton.mp hm ▸ hn
  constructor
  · exact Expr.Derives.congr hsame hnamed hroot
  · refine Expr.Derives.congr (fun m hm => (hsame m hm).symm) (fun m b hm hb => ?_) hroot
    rw [← hsame m hm] at hb
    exact hnamed m b hm hb

theorem readLines_thinkingEntry (start stop : String) : RuleTable.readLines [("thinking-root", thinkingEntry start stop)] =
    some [("thinking-root", (thinkingEntry start stop).canonical)] :=
  RuleTable.readLines_proper (List.forall_mem_singleton.mpr ⟨(by decide : IsName "thinking-root"),
    Expr.readable_thinkingEntry start stop⟩)

/-- The rules of a thinking block are read where they stand, whatever the lines around them are. -/
theorem readRules_withThinking (start : String) (stop : EndMarker) (maxLength : Nat) {rest : List Rule} {read : RuleTable}
    (hread : readRules (RuleTable.render ⟨tokenRules settings ++ rest⟩) = some read) :
    ∃ first more, read = ⟨first ++ more⟩ ∧
      readRules (RuleTable.render ⟨tokenRules settings ++ thinkingRules stop maxLength ++ rest ++
          [("thinking-root", thinkingEntry start stop.text)]⟩) =
        some ⟨first ++ (thinkingRules stop maxLength).map (fun r => (r.1, r.2.canonical)) ++ more ++
          [("thinking-root", (thinkingEntry start stop.text).canonical)]⟩ := by
  rw [RuleTable.readRules_render_eq (by simp [tokenRules])] at hread
  obtain ⟨rules, hrules, rfl⟩ := Option.map_eq_some_iff.mp hread
  obtain ⟨first, more, hfirst, hmore, rfl⟩ := RuleTable.readLines_append.mp hrules
  have hblock := RuleTable.readLines_proper (Expr.readable_thinkingRules stop maxLength)
  have hfront := RuleTable.readLines_append.mpr ⟨_, _, hfirst, hblock, rfl⟩
  exact ⟨first, more, rfl, RuleTable.readRules_parts (by simp [tokenRules]) hfront hmore (readLines_thinkingEntry start stop.text)⟩

/-- The compiler itself makes no reference to a thinking block that is not there. -/
theorem avoidsThinking_canonical (hs : settings.includeThinking = false) {shape : Shape} {table : RuleTable}
    (h : (shape.grammar settings).1 = .ok table) : table.canonical.AvoidsThinking := by
  obtain ⟨e, t, hc, rfl⟩ := exists_compiles_of_grammar h
  have hnames : ∀ n ∈ (finishTable settings e t).names, n ∉ thinkingNames := by
    intro n hn
    have hn : n ∈ t.names ∨ n = "root" := by
      simp only [finishTable, hs, Bool.false_eq_true, ↓reduceIte] at hn
      split at hn
      · exact .inl hn
      · exact RuleTable.mem_names_push.mp hn
    rcases hn with hn | rfl
    · rcases hc.mem_names hn with hn | ⟨-, rfl⟩ | hn
      · simp only [names_seedTable, hs, Bool.false_eq_true, ↓reduceIte, List.append_nil, List.mem_cons, List.not_mem_nil,
          or_false] at hn
        rcases hn with rfl | rfl <;> decide
      · exact Rooted.not_mem_thinkingNames (.inl rfl)
      · exact Rooted.not_mem_thinkingNames (.inr hn)
    · exact Rooted.not_mem_thinkingNames (.inl rfl)
  intro r hr n hn
  obtain ⟨q, hq, rfl⟩ := List.mem_map.mp hr
  rw [Expr.ruleNames_canonical] at hn
  exact hnames n ((ordered_finishTable hc).1.closed q hq hn)

/-- A thinking block adds its rules and changes nothing else: the same errors, the same rules in the same order, and the same
texts of `root`, unless a raw format has brought a reference to a rule of the block into the text of the grammar. -/
theorem thinking_conservative (hs : settings.includeThinking = false) (hstart : start ≠ "") (stop : EndMarker) (maxLength : Nat)
    (shape : Shape) :
    match (shape.grammar settings).1 with
    | .error e => (shape.grammar (settings.withThinking start stop maxLength hstart)).1 = .error e
    | .ok table => ∃ rest table', table.rules = tokenRules settings ++ rest ∧
        (shape.grammar (settings.withThinking start stop maxLength hstart)).1 = .ok table' ∧
        table'.rules = tokenRules settings ++ thinkingRules stop maxLength ++ rest ++
          [("thinking-root", thinkingEntry start stop.text)] ∧
        (∀ read, readRules table.render = some read → ∃ read', readRules table'.render = some read' ∧
          (read.AvoidsThinking →
            ∀ w, Expr.Derives read.body? (.rule "root") w ↔ Expr.Derives read'.body? (.rule "root") w)) ∧
        (shape.every Shape.hasNoRawFormat = true → ∃ read, readRules table.render = some read ∧ read.AvoidsThinking) := by
  have hgrammar := grammar_withThinking hs hstart stop maxLength shape
  match hr : (shape.grammar settings).1 with
  | .error e =>
    rw [hr] at hgrammar
    exact hgrammar
  | .ok table =>
    rw [hr] at hgrammar
    obtain ⟨rest, hrules, hthinking⟩ := hgrammar
    have htable : table = ⟨tokenRules settings ++ rest⟩ := congrArg RuleTable.mk hrules
    refine ⟨rest, _, hrules, hthinking, rfl, fun read hread => ?_, fun hraws => ?_⟩
    · rw [htable] at hread
      obtain ⟨first, more, rfl, hread'⟩ := readRules_withThinking start stop maxLength hread
      refine ⟨_, hread', fun havoids w => derives_withThinking havoids ?_ (by decide)⟩
      intro n hn hmem
      refine hn ?_
      rw [List.map_append, List.map_map] at hmem
      exact hmem
    · exact ⟨_, readRules_grammar_of_noRawFormat hr hraws, avoidsThinking_canonical hs hr⟩

/-- A yes or no is written the same with a thinking block as without. -/
theorem thinking_conservative_flag :
    ({} : GrammarSettings).includeThinking = false ∧ "<t>" ≠ "" ∧
    ∃ table table' read read', ((Shape.scalar .boolean "boolean").grammar {}).1 = .ok table ∧
      ((Shape.scalar .boolean "boolean").grammar
        (GrammarSettings.withThinking {} "<t>" ({} : GrammarSettings).thinkingEnd 8 (by decide))).1 = .ok table' ∧
      readRules table.render = some read ∧ readRules table'.render = some read' ∧
      ∀ w, Expr.Derives read.body? (.rule "root") w ↔ Expr.Derives read'.body? (.rule "root") w := by
  have hstart : "<t>" ≠ "" := by decide
  obtain ⟨table, htable⟩ : ∃ table, ((Shape.scalar .boolean "boolean").grammar {}).1 = .ok table := ⟨_, by rfl⟩
  have h := thinking_conservative (rfl : ({} : GrammarSettings).includeThinking = false) hstart ({} : GrammarSettings).thinkingEnd 8
    (.scalar .boolean "boolean")
  rw [htable] at h
  obtain ⟨_, table', -, htable', -, htexts, hraws⟩ := h
  obtain ⟨read, hread, havoids⟩ := hraws (by rfl)
  obtain ⟨read', hread', hroot⟩ := htexts read hread
  exact ⟨rfl, hstart, table, table', read, read', htable, htable', hread, hread', hroot havoids⟩

/-- The text of a raw format names a rule of the thinking block, so `root` means more where there is such a block. -/
theorem root_named_by_fragment :
    ∃ table table' read read',
      ((Shape.string { format := some "gbnf:\"a\" | think-content" }).grammar {}).1 = .ok table ∧
      ((Shape.string { format := some "gbnf:\"a\" | think-content" }).grammar
        (GrammarSettings.withThinking {} "<think>" ({} : GrammarSettings).thinkingEnd 1024 (by decide))).1 = .ok table' ∧
      readRules table.render = some read ∧ readRules table'.render = some read' ∧
      ¬ Expr.Derives read.body? (.rule "root") [] ∧ Expr.Derives read'.body? (.rule "root") [] := by
  -- only the line of the raw format has to be followed, the others are proper
  have hline : RuleTable.readLines [("root", .raw "\"a\" | think-content")] =
      some [("root", .oneOf .spaced [.literal "a", .rule "think-content"])] := by
    decide +kernel
  have hread := RuleTable.readRules_parts (List.cons_ne_nil _ _) (RuleTable.readLines_proper (proper_seedTable {})) hline
    (RuleTable.readLines_proper (List.forall_mem_nil _))
  have hread' := RuleTable.readRules_parts (List.cons_ne_nil _ _)
    (RuleTable.readLines_proper (proper_seedTable { includeThinking := true })) hline
    (readLines_thinkingEntry "<think>" ({} : GrammarSettings).thinkingEnd.text)
  have hnone : ∀ body, [] ∈ (Expr.repeated (.rule "think-char") (.between 0 1024)).texts body := by
    intro body
    refine Expr.mem_texts_repeated.mpr ⟨0, ⟨le_rfl, by decide⟩, ?_⟩
    rw [pow_zero]
    exact Language.nil_mem_one
  refine ⟨_, _, _, _, by rfl, by rfl, hread, hread', fun h => ?_, ?_⟩
  · rw [← Expr.mem_texts, Expr.texts_rule (by rfl)] at h
    cases h with
    | altFirst h => cases h
    | altRest h =>
      cases h with
      | rule hbody _ => cases hbody
  · exact .rule (by rfl) (.altRest (.rule (by rfl) (hnone _)))

end

end RecordGrammar
