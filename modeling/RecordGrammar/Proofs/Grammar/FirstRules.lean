import RecordGrammar.Proofs.Grammar.GrammarText

/-!
# The rules at the start of a grammar

The rules that every grammar starts with refer only to each other (`closed_seedTable`), so they mean the same whatever rules
follow (`RuleTable.Closed.derives_of_extends`). And being one to a line, they are read from the text of a grammar as they
are whatever lines follow, also such as are no text of a rule (`RuleTable.Proper.extends_of_readRules`).
-/

namespace RecordGrammar
open Reading

namespace Expr
variable {gap : Gap} {a b : Expr}

/-- The names of the rules that an expression refers to. -/
def ruleNames : Expr → List String
  | rule name => [name]
  | seq _ a b => a.ruleNames ++ b.ruleNames
  | alt _ a b => a.ruleNames ++ b.ruleNames
  | group e => e.ruleNames
  | repeated e _ => e.ruleNames
  | empty | literal _ | cls _ | raw _ => []

@[simp] theorem ruleNames_canonical (e : Expr) : e.canonical.ruleNames = e.ruleNames := by
  induction e with
  | seq _ a b iha ihb | alt _ a b iha ihb => simp only [canonical, ruleNames, iha, ihb]
  | group e ih | repeated e _ ih => exact ih
  | empty | literal | cls | rule | raw => rfl

/-- What an expression stands for depends only on the rules that it leads to. -/
theorem Derives.congr {body body' : String → Option Expr} {named : String → Prop} {e : Expr} {w : List Char}
    (hsame : ∀ n, named n → body n = body' n) (hnamed : ∀ n b, named n → body n = some b → ∀ m ∈ b.ruleNames, named m)
    (he : ∀ n ∈ e.ruleNames, named n) (h : Derives body e w) : Derives body' e w := by
  induction h with
  | empty => exact .empty
  | literal s => exact .literal s
  | cls h => exact .cls h
  | rule h _ ih =>
    have hn := he _ (List.mem_singleton_self _)
    exact .rule ((hsame _ hn).symm.trans h) (ih (hnamed _ _ hn h))
  | seq _ _ iha ihb =>
    exact .seq (iha fun n hn => he n (List.mem_append_left _ hn)) (ihb fun n hn => he n (List.mem_append_right _ hn))
  | altFirst _ ih => exact .altFirst (ih fun n hn => he n (List.mem_append_left _ hn))
  | altRest _ ih => exact .altRest (ih fun n hn => he n (List.mem_append_right _ hn))
  | group _ ih => exact .group (ih he)
  | repeated hn _ ih => exact .repeated hn fun u hu => ih u hu he

theorem ruleNames_divergeFrom (tail : List Char) : (divergeFrom tail).ruleNames = [] := by
  fun_induction divergeFrom tail with
  | case1 | case2 => rfl
  | case3 c tail hne ih =>
    simp only [ruleNames, row, oneOf, andThen, leaveMarker, ih, List.append_nil]

theorem ruleNames_safeLtExpr (m : EndMarker) : (safeLtExpr m).ruleNames = [] := by
  simp only [safeLtExpr, word, row, andThen, ruleNames, ruleNames_divergeFrom, List.append_nil]

end Expr

namespace RuleTable
variable {t t' : RuleTable} {e : Expr} {w : List Char}

/-- The rules refer only to rules of the table. -/
def Closed (t : RuleTable) : Prop := ∀ r ∈ t.rules, r.2.ruleNames ⊆ t.names

theorem names_canonical (t : RuleTable) : t.canonical.names = t.names := by
  simp only [names, canonical, List.map_map]
  rfl

theorem Closed.canonical (h : t.Closed) : t.canonical.Closed := fun r hr => by
  obtain ⟨q, hq, rfl⟩ := List.mem_map.mp hr
  rw [Expr.ruleNames_canonical, names_canonical]
  exact h q hq

theorem exists_body?_of_mem_names {n : String} (h : n ∈ t.names) : ∃ b, t.body? n = some b := by
  obtain ⟨r, hr, rfl⟩ := List.mem_map.mp h
  refine Option.ne_none_iff_exists'.mp fun hnone => ?_
  exact bne_iff_ne.mp (List.lookup_eq_none_iff.mp hnone r hr) rfl

theorem Closed.ruleNames_subset (h : t.Closed) {n : String} (hb : t.body? n = some e) : e.ruleNames ⊆ t.names :=
  h (n, e) (mem_rules_of_body? hb)

/-- What follows the rules of a table adds nothing to what these stand for. -/
theorem Closed.derives_of_extends (hclosed : t.Closed) (hext : t.Extends t') (he : e.ruleNames ⊆ t.names)
    (h : Expr.Derives t'.body? e w) : Expr.Derives t.body? e w := by
  have hsame : ∀ n ∈ t.names, t'.body? n = t.body? n := fun n hn => by
    obtain ⟨b, hb⟩ := exists_body?_of_mem_names hn
    rw [hb, hext.body? hb]
  refine h.congr hsame (fun n b hn hb => ?_) he
  rw [hsame n hn] at hb
  exact hclosed.ruleNames_subset hb

/-- Rules that are added take nothing away from what an expression stands for. -/
theorem Extends.derives (hext : t.Extends t') (h : Expr.Derives t.body? e w) : Expr.Derives t'.body? e w := by
  induction h with
  | empty => exact .empty
  | literal s => exact .literal s
  | cls h => exact .cls h
  | rule h _ ih => exact .rule (hext.body? h) ih
  | seq _ _ iha ihb => exact .seq iha ihb
  | altFirst _ ih => exact .altFirst ih
  | altRest _ ih => exact .altRest ih
  | group _ ih => exact .group ih
  | repeated hn _ ih => exact .repeated hn ih

/-- Whatever follows the rules of a proper table, they are read as they are. -/
theorem Proper.extends_of_readRules {read : RuleTable} (h : t.Proper) (hext : t.Extends t')
    (hread : readRules t'.render = some read) : t.canonical.Extends read := by
  obtain ⟨more, hmore⟩ := hext
  by_cases hne : t'.rules = []
  · rw [hne] at hmore
    rw [Extends, canonical, (List.append_eq_nil_iff.mp hmore).1]
    exact List.nil_prefix
  rw [readRules_render_eq hne, ← hmore] at hread
  obtain ⟨rules, hrules, rfl⟩ := Option.map_eq_some_iff.mp hread
  obtain ⟨first, rest, hfirst, -, rfl⟩ := readLines_append.mp hrules
  rw [readLines_proper h] at hfirst
  cases hfirst
  exact List.prefix_append _ _

end RuleTable

theorem names_seedTable (settings : GrammarSettings) : (seedTable settings).names = ["char", "space"] ++
    if settings.includeThinking then ["think-safe-lt", "think-char", "think-content"] else [] := by
  unfold RuleTable.names seedTable
  split <;> rfl

theorem closed_seedTable (settings : GrammarSettings) : (seedTable settings).Closed := fun r hr => by
  rw [names_seedTable]
  simp only [seedTable, List.mem_append, List.mem_cons, List.not_mem_nil, or_false] at hr
  rcases hr with (rfl | rfl) | hr
  · exact List.nil_subset _
  · exact List.nil_subset _
  · split at hr
    · next ht =>
      rw [if_pos ht]
      simp only [thinkingRules, List.mem_cons, List.not_mem_nil, or_false] at hr
      rcases hr with rfl | rfl | rfl
      · rw [Expr.ruleNames_safeLtExpr]
        exact List.nil_subset _
      · change ["think-safe-lt"] ⊆ _
        decide
      · change ["think-char"] ⊆ _
        decide
    · cases hr

theorem seedTable_extends_of_grammar {shape : Shape} {settings : GrammarSettings} {table : RuleTable}
    (h : (shape.grammar settings).1 = .ok table) : (seedTable settings).Extends table := by
  obtain ⟨e, t, hc, rfl⟩ := exists_compiles_of_grammar h
  exact hc.table_extends.trans (finishTable_extends e t)

/-- What stands for a text by the rules at the start of a table alone, does so by all of them, and also once it has been read
from its text. -/
theorem derives_seedTable_iff {settings : GrammarSettings} {table rules : RuleTable} {e read : Expr} {w : List Char}
    (hext : (seedTable settings).Extends table) (he : e.ruleNames ⊆ (seedTable settings).names)
    (hread : read = e ∧ rules = table ∨ read = e.canonical ∧ readRules table.render = some rules) :
    Expr.Derives rules.body? read w ↔ Expr.Derives (seedTable settings).body? e w := by
  have hclosed := closed_seedTable settings
  rcases hread with ⟨rfl, rfl⟩ | ⟨rfl, hread⟩
  · exact ⟨hclosed.derives_of_extends hext he, hext.derives⟩
  · have hlines := (proper_seedTable settings).extends_of_readRules hext hread
    rw [← RuleTable.derives_canonical (t := seedTable settings)]
    refine ⟨hclosed.canonical.derives_of_extends hlines ?_, hlines.derives⟩
    rwa [Expr.ruleNames_canonical, RuleTable.names_canonical]

section
variable {shape : Shape} {settings : GrammarSettings} {table read : RuleTable} {name : String} {w : List Char}

theorem derives_firstRule_iff (h : (shape.grammar settings).1 = .ok table)
    (hread : read = table ∨ readRules table.render = some read) (hname : name ∈ (seedTable settings).names) :
    Expr.Derives read.body? (.rule name) w ↔ Expr.Derives (seedTable settings).body? (.rule name) w :=
  derives_seedTable_iff (seedTable_extends_of_grammar h) (fun _ hn => List.mem_singleton.mp hn ▸ hname)
    (hread.imp (fun h => ⟨rfl, h⟩) fun h => ⟨rfl, h⟩)

/-- What a grammar derives from one of its first rules, those derive alone; also once the grammar has been read from its
text. -/
theorem derives_seedTable (h : (shape.grammar settings).1 = .ok table)
    (hread : read = table ∨ readRules table.render = some read) (hname : name ∈ (seedTable settings).names)
    (hw : Expr.Derives read.body? (.rule name) w) : Expr.Derives (seedTable settings).body? (.rule name) w :=
  (derives_firstRule_iff h hread hname).mp hw

end

end RecordGrammar
