import RecordGrammar.Proofs.Grammar.Visit

/-!
# The whole grammar

`grammar_fst`, `grammar_cases`: the grammar of a shape is the rules that every grammar has, those that the run over the
shape adds, and the entry rules; or it is the error of that run. The entry rules never find their names
taken, since all that the run adds is named for `root` or lies under it.
-/

namespace RecordGrammar
open Compiling

/-- The rules that stand at the start of a grammar. -/
def seedTable (settings : GrammarSettings) : RuleTable where
  rules := [("char", charBody settings.delimiters), ("space", spaceBody)] ++
    if settings.includeThinking then thinkingRules settings.thinkingEnd settings.maxThinkingLength else []

/-- The table with the entry rules: `root`, unless the run has added it, and the one of the thinking block. -/
def finishTable (settings : GrammarSettings) (e : Expr) (t : RuleTable) : RuleTable :=
  let t := if e = .rule "root" then t else t.push "root" e
  if settings.includeThinking then
    t.push "thinking-root" (thinkingEntry settings.thinkingStart settings.thinkingEnd.text)
  else t

variable {settings : GrammarSettings}

theorem mem_names_seedTable {n : String} (h : n ∈ (seedTable settings).names) :
    n ∈ ["char", "space", "think-safe-lt", "think-char", "think-content"] := by
  simp only [RuleTable.names, seedTable] at h
  split at h <;> simp [thinkingRules] at h ⊢ <;> grind

/-- What lies under `root` is no name that every grammar has. -/
theorem not_mem_seedTable_of_under {n : String} (h : Under "root" n) : n ∉ (seedTable settings).names := fun hn => by
  obtain ⟨r, rfl⟩ := h
  have := mem_names_seedTable hn
  simp only [List.mem_cons, List.not_mem_nil, or_false] at this
  rcases this with h | h | h | h | h <;> simpa using congrArg (·.toList.head?) h

theorem root_not_mem_seedTable : "root" ∉ (seedTable settings).names := fun hn => by
  simpa using mem_names_seedTable hn

theorem thinkingRoot_not_mem_names {shape : Shape} {e : Expr} {t : RuleTable}
    (h : Compiles settings shape "root" (seedTable settings) e t) : "thinking-root" ∉ t.names := fun hn => by
  rcases h.mem_names hn with hn | ⟨-, hn⟩ | ⟨r, hn⟩
  · simpa using mem_names_seedTable hn
  · simp at hn
  · simpa using congrArg (·.toList.head?) hn

/-! ### Running the whole -/

theorem exec_addRules : ∀ (rules : List Rule) (p : Progress),
    (rules.map (·.1)).Nodup → (∀ r ∈ rules, r.1 ∉ p.table.names) →
    (addRules rules).exec p = (.ok (), { p with table := ⟨p.table.rules ++ rules⟩ })
  | [], p, _, _ => by
    rw [addRules, List.append_nil]
    rfl
  | (name, body) :: rest, p, hnodup, hnew => by
    obtain ⟨hname, hnodup⟩ := List.nodup_cons.mp hnodup
    have hfree : p.table.contains name = false := RuleTable.contains_eq_false_iff.mpr (hnew _ List.mem_cons_self)
    rw [addRules, exec_bind, exec_addRule, hfree, if_neg Bool.false_ne_true]
    refine (exec_addRules rest _ hnodup fun r hr hmem => ?_).trans ?_
    · rcases RuleTable.mem_names_push.mp hmem with hmem | he
      · exact hnew r (List.mem_cons_of_mem _ hr) hmem
      · exact hname (List.mem_map.mpr ⟨r, hr, he⟩)
    · simp only [RuleTable.push, List.append_assoc, List.cons_append, List.nil_append]

theorem exec_addRule_of_not_mem {name : String} {p : Progress} (body : Expr) (h : name ∉ p.table.names) :
    (addRule name body).exec p = (.ok (), { p with table := p.table.push name body }) := by
  rw [exec_addRule, RuleTable.contains_eq_false_iff.mpr h, if_neg Bool.false_ne_true]

/-- What compiling a whole grammar comes to, once the rules that every grammar has are there. -/
theorem exec_compileGrammar (shape : Shape) :
    (compileGrammar settings shape).exec {} = exec (do
      let root ← compileShape settings shape "root"
      if root ≠ .rule "root" then addRule "root" root
      if settings.includeThinking then
        addRule "thinking-root" (thinkingEntry settings.thinkingStart settings.thinkingEnd.text)
      note [.grammarCompiled (← get).table.size settings.entryRule]) ⟨seedTable settings, []⟩ := by
  rw [compileGrammar, exec_bind, exec_addRules _ _ (by simp) (by simp [RuleTable.names])]
  by_cases ht : settings.includeThinking = true
  · simp only [ht, ↓reduceIte]
    rw [exec_bind, exec_addRules _ _ (by simp [thinkingRules]) (by simp [thinkingRules, RuleTable.names])]
    simp only [seedTable, ht, ↓reduceIte]
    rfl
  · simp only [ht, seedTable]
    rfl

theorem grammar_eq (settings : GrammarSettings) (shape : Shape) :
    shape.grammar settings = (((compileGrammar settings shape).exec {}).1.map fun _ => ((compileGrammar settings shape).exec {}).2.table,
      ((compileGrammar settings shape).exec {}).2.notices) := by
  rw [Shape.grammar]
  simp only [exec]
  generalize (compileGrammar settings shape).run.run {} = r
  obtain ⟨_ | _, _⟩ := r <;> rfl

/-- The grammar of a shape is what the run over the shape gives, and the entry rules. -/
theorem grammar_fst (shape : Shape) (settings : GrammarSettings) :
    (shape.grammar settings).1 = match (compileShape settings shape "root").exec ⟨seedTable settings, []⟩ with
      | (.ok e, q) => .ok (finishTable settings e q.table)
      | (.error e, _) => .error e := by
  have hgrammar : ∀ r q, (compileGrammar settings shape).exec {} = (r, q) →
      (shape.grammar settings).1 = r.map fun _ => q.table := fun r q h => by
    rw [grammar_eq, h]
  have hend := @compileShape_ended settings shape "root" ⟨seedTable settings, []⟩
  rw [exec_compileGrammar, exec_bind] at hgrammar
  match hr : (compileShape settings shape "root").exec ⟨seedTable settings, []⟩ with
  | (.error e, q) =>
    rw [hr] at hgrammar
    exact hgrammar _ q rfl
  | (.ok e, q) =>
    rw [hr] at hend hgrammar
    have hthinking : "thinking-root" ∉ q.table.names := thinkingRoot_not_mem_names hend
    have hroot : e ≠ .rule "root" → "root" ∉ q.table.names := hend.path_not_mem_names root_not_mem_seedTable
    -- what is left to do adds `root`, unless the shape is a string with that rule, and the entry rule
    refine hgrammar (.ok ()) ⟨finishTable settings e q.table,
      q.notices ++ [.grammarCompiled (finishTable settings e q.table).size settings.entryRule]⟩ ?_
    by_cases he : e = .rule "root"
    · simp only [he, ne_eq, not_true_eq_false, ↓reduceIte, finishTable]
      by_cases ht : settings.includeThinking = true
      · simp only [ht, ↓reduceIte]
        rw [exec_bind, exec_addRule_of_not_mem _ hthinking]
        rfl
      · simp only [ht]
        rfl
    · simp only [he, ne_eq, not_false_eq_true, ↓reduceIte, finishTable]
      rw [exec_bind, exec_addRule_of_not_mem _ (hroot he)]
      by_cases ht : settings.includeThinking = true
      · simp only [ht, ↓reduceIte]
        rw [exec_bind, exec_addRule_of_not_mem _ (by simpa using hthinking)]
        rfl
      · simp only [ht]
        rfl

theorem grammar_cases (shape : Shape) (settings : GrammarSettings) :
    (∃ e t, Compiles settings shape "root" (seedTable settings) e t ∧
      (shape.grammar settings).1 = .ok (finishTable settings e t)) ∨
    (∃ e, Fails settings shape "root" (seedTable settings) e ∧ (shape.grammar settings).1 = .error e) := by
  have hend := @compileShape_ended settings shape "root" ⟨seedTable settings, []⟩
  rw [grammar_fst]
  match hr : (compileShape settings shape "root").exec ⟨seedTable settings, []⟩ with
  | (.error e, q) =>
    rw [hr] at hend
    exact .inr ⟨e, hend, rfl⟩
  | (.ok e, q) =>
    rw [hr] at hend
    exact .inl ⟨e, q.table, hend, rfl⟩

theorem finishTable_extends_of_ne {e : Expr} (t : RuleTable) (he : e ≠ .rule "root") :
    (t.push "root" e).Extends (finishTable settings e t) := by
  rw [finishTable, if_neg he]
  split
  · exact RuleTable.extends_push ..
  · exact .refl _

theorem finishTable_extends (e : Expr) (t : RuleTable) : t.Extends (finishTable settings e t) := by
  by_cases he : e = .rule "root"
  · rw [finishTable, if_pos he]
    split
    · exact RuleTable.extends_push ..
    · exact .refl _
  · exact (RuleTable.extends_push ..).trans (finishTable_extends_of_ne t he)

theorem mem_names_finishTable {e : Expr} {t : RuleTable} {n : String} (h : n ∈ (finishTable settings e t).names) :
    n ∈ t.names ∨ n = "root" ∨ n = "thinking-root" := by
  have hroot : n ∈ (if e = .rule "root" then t else t.push "root" e).names → n ∈ t.names ∨ n = "root" := by
    split
    · exact .inl
    · exact RuleTable.mem_names_push.mp
  rw [finishTable] at h
  split at h
  · rcases RuleTable.mem_names_push.mp h with h | rfl
    · exact (hroot h).imp_right .inl
    · exact .inr (.inr rfl)
  · exact (hroot h).imp_right .inl

theorem exists_compiles_of_grammar {shape : Shape} {table : RuleTable} (h : (shape.grammar settings).1 = .ok table) :
    ∃ e t, Compiles settings shape "root" (seedTable settings) e t ∧ table = finishTable settings e t := by
  rcases grammar_cases shape settings with ⟨e, t, hc, hres⟩ | ⟨e, -, hres⟩
  · rw [h] at hres
    cases hres
    exact ⟨e, t, hc, rfl⟩
  · rw [h] at hres
    cases hres

end RecordGrammar
