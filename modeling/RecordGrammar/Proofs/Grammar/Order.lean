import RecordGrammar.Proofs.Grammar.FirstRules

/-!
# The order of the rules

A rule is added once all rules are there that its body refers to (`Compiles.ordered`), so the rules of a grammar refer only to
rules before them and no chain of references comes back to where it started. `grammar_ordered` says so of the rules as they
are read from the text of a grammar, the last of which is the one that a consumer starts from.
-/

namespace RecordGrammar
open Reading

/-! ### The names in an expression -/

/-- The rules that tokens refer to. -/
abbrev tokenNames : List String := ["char", "space"]

namespace Expr

@[simp] theorem ruleNames_andThen (gap : Gap) (a b : Expr) : (andThen gap a b).ruleNames = a.ruleNames ++ b.ruleNames := by
  induction a with
  | seq _ x y _ ihy => rw [andThen, ruleNames, ihy, ruleNames, List.append_assoc]
  | empty | literal | cls | rule | alt | group | repeated | raw => rfl

@[simp] theorem ruleNames_row (gap : Gap) (es : List Expr) : (row gap es).ruleNames = es.flatMap ruleNames := by
  fun_induction row gap es with
  | case1 => rfl
  | case2 e => exact (List.append_nil _).symm
  | case3 e es _ ih => rw [ruleNames_andThen, ih, List.flatMap_cons]

@[simp] theorem ruleNames_oneOf (gap : Gap) (es : List Expr) : (oneOf gap es).ruleNames = es.flatMap ruleNames := by
  fun_induction oneOf gap es with
  | case1 => rfl
  | case2 e => exact (List.append_nil _).symm
  | case3 e es _ ih => rw [ruleNames, ih, List.flatMap_cons]

theorem ruleNames_scalar (kind : Scalar) : (scalarExpr kind).ruleNames ⊆ tokenNames := by
  cases kind <;> decide

theorem ruleNames_anyText (values : List String) : (anyText values).ruleNames ⊆ tokenNames := by
  simp [anyText, ruleNames, jsonText, space, List.flatMap_map]

theorem ruleNames_boundedString (min max : Nat) : (boundedStringExpr min max).ruleNames ⊆ tokenNames := by
  simp [boundedStringExpr, ruleNames, quote, space]

theorem ruleNames_named (f : NamedFormat) : f.expr.ruleNames ⊆ tokenNames := by
  simp [NamedFormat.expr, ruleNames, quote, space]

theorem ruleNames_patternChar (c : Char) : (patternChar c).ruleNames ⊆ tokenNames := by
  unfold patternChar placeholder?
  split <;> simp [ruleNames, span]

theorem ruleNames_pattern (pattern : String) : (patternExpr pattern).ruleNames ⊆ tokenNames := by
  have hchars : (pattern.toList.map patternChar).flatMap ruleNames ⊆ tokenNames := by
    intro n hn
    obtain ⟨e, he, hn⟩ := List.mem_flatMap.mp hn
    obtain ⟨c, -, rfl⟩ := List.mem_map.mp he
    exact ruleNames_patternChar c hn
  rw [patternExpr, ruleNames_row, List.flatMap_append, List.flatMap_cons]
  refine List.append_subset.mpr ⟨List.append_subset.mpr ⟨List.nil_subset _, hchars⟩, ?_⟩
  decide

theorem ruleNames_array (item : String) (min max : Nat) : (arrayExpr item min max).ruleNames ⊆ ["space", item] := by
  unfold arrayExpr
  split_ifs <;> simp [ruleNames, word, space, maybe]

theorem ruleNames_object (keyRules : List String) : (objectExpr keyRules).ruleNames ⊆ "space" :: keyRules := by
  have hfields : ((keyRules.map rule).intersperse (row .spaced [word ",", .space])).flatMap ruleNames ⊆
      "space" :: keyRules := by
    induction keyRules with
    | nil => exact List.nil_subset _
    | cons k keys ih =>
      cases keys with
      | nil => simp [ruleNames]
      | cons k' keys =>
        have hrest := List.Subset.trans ih (List.cons_subset_cons "space" (List.subset_cons_self k _))
        simpa [ruleNames, word, space] using hrest
  rw [objectExpr, ruleNames_row, List.flatMap_append, List.flatMap_append]
  refine List.append_subset.mpr ⟨List.append_subset.mpr ⟨?_, hfields⟩, ?_⟩
  · simp [ruleNames, word, space]
  · simp [ruleNames, word, space]

theorem ruleNames_field (name : String) (value : Expr) : (fieldExpr name value).ruleNames ⊆ "space" :: value.ruleNames := by
  simp [fieldExpr, ruleNames, jsonText, word, space]

end Expr

theorem StringShape.RuleBody.ruleNames {settings : GrammarSettings} {text : StringShape} {body : Expr}
    (h : text.RuleBody settings body) : body.ruleNames ⊆ tokenNames := by
  cases h with
  | values => exact Expr.ruleNames_anyText _
  | @format f _ ns hf hc =>
    cases f with
    | raw r =>
      cases hc
      exact List.nil_subset _
    | named f =>
      cases hc
      exact Expr.ruleNames_named f
    | pattern s =>
      cases hc
      exact Expr.ruleNames_pattern s
    | unknown s =>
      rw [StringFormat.compile] at hc
      split at hc
      · cases hc
      · cases hc
        exact Expr.ruleNames_boundedString _ _

/-! ### Tables in order -/

namespace RuleTable
variable {t t' : RuleTable} {name n m : String} {body : Expr}

/-- The rule of the first name refers to the second one. -/
def Refers (t : RuleTable) (n m : String) : Prop := ∃ e, (n, e) ∈ t.rules ∧ m ∈ e.ruleNames

/-- No two rules have one name, and each refers only to rules before it. -/
structure Ordered (t : RuleTable) : Prop where
  nodup : t.names.Nodup
  earlier : ∀ before r after, t.rules = before ++ r :: after → r.2.ruleNames ⊆ before.map (·.1)

theorem Extends.names_subset (h : t.Extends t') : t.names ⊆ t'.names := fun _ hn => h.mem_names hn

namespace Ordered

theorem nil : Ordered {} := ⟨List.nodup_nil, fun _ _ _ h => by simp at h⟩

theorem closed (h : t.Ordered) : t.Closed := fun r hr => by
  obtain ⟨before, after, hrules⟩ := List.append_of_mem hr
  refine List.Subset.trans (h.earlier before r after hrules) ?_
  rw [names, hrules, List.map_append]
  exact List.subset_append_left _ _

theorem push (h : t.Ordered) (hname : name ∉ t.names) (hbody : body.ruleNames ⊆ t.names) : (t.push name body).Ordered := by
  refine ⟨?_, fun before r after he => ?_⟩
  · rw [names_push]
    exact List.nodup_append.mpr ⟨h.nodup, List.nodup_singleton _, by
      rintro _ ha _ hb rfl
      exact hname (List.mem_singleton.mp hb ▸ ha)⟩
  -- the last rule is the new one, and every other one stands where it stood
  change t.rules ++ [(name, body)] = _ at he
  rcases List.eq_nil_or_concat after with rfl | ⟨rest, last, rfl⟩
  · obtain ⟨rfl, hr⟩ := List.append_inj' he rfl
    cases hr
    exact hbody
  · rw [List.concat_eq_append, ← List.cons_append, ← List.append_assoc] at he
    exact h.earlier before r rest (List.append_inj' he rfl).1

theorem ensure (h : t.Ordered) (hbody : body.ruleNames ⊆ t.names) : (t.ensure name body).Ordered := by
  by_cases hname : name ∈ t.names
  · rwa [RuleTable.ensure, if_pos (contains_iff.mpr hname)]
  · rw [ensure_of_not_mem hname]
    exact h.push hname hbody

theorem canonical (h : t.Ordered) : t.canonical.Ordered := by
  refine ⟨by rw [names_canonical]; exact h.nodup, fun before r after he => ?_⟩
  obtain ⟨before, rest, hrules, rfl, hrest⟩ := List.map_eq_append_iff.mp he
  obtain ⟨q, after, rfl, rfl, rfl⟩ := List.map_eq_cons_iff.mp hrest
  rw [Expr.ruleNames_canonical, List.map_map]
  exact h.earlier before q after hrules

/-- A rule stands behind the rules it refers to. -/
theorem idxOf_lt (h : t.Ordered) (href : t.Refers n m) : t.names.idxOf m < t.names.idxOf n := by
  obtain ⟨e, hrule, hm⟩ := href
  obtain ⟨before, after, hrules⟩ := List.append_of_mem hrule
  have hbefore : m ∈ before.map (·.1) := h.earlier before (n, e) after hrules hm
  have hnames : t.names = before.map (·.1) ++ n :: after.map (·.1) := by rw [names, hrules, List.map_append, List.map_cons]
  have hn : n ∉ before.map (·.1) := fun hn => by
    have hnodup := h.nodup
    rw [hnames] at hnodup
    exact (List.nodup_append.mp hnodup).2.2 n hn n List.mem_cons_self rfl
  rw [hnames, List.idxOf_append_of_mem hbefore, List.idxOf_append_of_notMem hn]
  exact Nat.lt_add_right _ (List.idxOf_lt_length_of_mem hbefore)

/-- No chain of references leads from a rule back to it. -/
theorem not_refers_self (h : t.Ordered) (n : String) : ¬ Relation.TransGen t.Refers n n := fun hcycle => by
  have hlt : ∀ m, Relation.TransGen t.Refers n m → t.names.idxOf m < t.names.idxOf n := fun m hm => by
    induction hm with
    | single href => exact h.idxOf_lt href
    | tail _ href ih => exact (h.idxOf_lt href).trans ih
  exact Nat.lt_irrefl _ (hlt n hcycle)

end Ordered

end RuleTable

/-! ### Runs -/

variable {settings : GrammarSettings}

mutual

/-- A run leaves the rules in order, and what it gives refers only to rules that are there by then. -/
theorem Compiles.ordered : ∀ {s : Shape} {path : String} {t t' : RuleTable} {e : Expr}, Compiles settings s path t e t' →
    tokenNames ⊆ t.names → t.Ordered → t'.Ordered ∧ e.ruleNames ⊆ t'.names
  | _, _, _, _, _, .namedString h, htokens, ht => by
    refine ⟨ht.ensure (List.Subset.trans h.ruleNames htokens), fun n hn => ?_⟩
    exact RuleTable.mem_names_ensure.mpr (.inr (List.mem_singleton.mp hn))
  | _, _, _, _, _, .plainString _, htokens, ht => ⟨ht, List.Subset.trans (Expr.ruleNames_boundedString _ _) htokens⟩
  | .scalar kind _, _, _, _, _, .scalar, htokens, ht => ⟨ht, List.Subset.trans (Expr.ruleNames_scalar kind) htokens⟩
  | _, _, _, _, _, .enum, htokens, ht => ⟨ht, List.Subset.trans (Expr.ruleNames_anyText _) htokens⟩
  | _, path, t, _, _, .sharedArray hold _, htokens, ht => by
    have hitem : itemName path ∈ t.names := RuleTable.contains_iff.mp hold
    exact ⟨ht, List.Subset.trans (Expr.ruleNames_array _ _ _) (by simpa using ⟨htokens (by decide), hitem⟩)⟩
  | _, path, t, _, _, .array (u := u) (v := v) _ helem _, htokens, ht => by
    obtain ⟨hu, hv⟩ := helem.ordered htokens ht
    have hspace : "space" ∈ u.names := helem.table_extends.names_subset (htokens (by decide))
    -- the rule of the elements is there: either they have made it themselves, or it is made of what they gave
    split
    · next he =>
      have hitem : itemName path ∈ u.names := hv (he ▸ List.mem_singleton_self _)
      exact ⟨hu, List.Subset.trans (Expr.ruleNames_array _ _ _) (by simpa using ⟨hspace, hitem⟩)⟩
    · have hspace := (RuleTable.extends_ensure u (itemName path) v).names_subset hspace
      have hitem : itemName path ∈ (u.ensure (itemName path) v).names := RuleTable.mem_names_ensure.mpr (.inr rfl)
      exact ⟨hu.ensure hv, List.Subset.trans (Expr.ruleNames_array _ _ _) (by simpa using ⟨hspace, hitem⟩)⟩
  | _, _, _, _, _, .object h, htokens, ht => by
    obtain ⟨ht', hkeys⟩ := h.ordered htokens ht
    have hspace := h.table_extends.names_subset (htokens (show "space" ∈ tokenNames by decide))
    exact ⟨ht', List.Subset.trans (Expr.ruleNames_object _) (List.cons_subset.mpr ⟨hspace, hkeys⟩)⟩

theorem CompilesFields.ordered : ∀ {fields : List (Field Shape)} {path : String} {used keys : List String} {t t' : RuleTable},
    CompilesFields settings fields path used t keys t' → tokenNames ⊆ t.names → t.Ordered → t'.Ordered ∧ keys ⊆ t'.names
  | _, _, _, _, _, _, .nil, _, ht => ⟨ht, List.nil_subset _⟩
  | f :: _, path, used, _, t, _, .cons (u := u) (v := v) hvalue hkey hrest, htokens, ht => by
    obtain ⟨hu, hv⟩ := hvalue.ordered htokens ht
    have htokens' : tokenNames ⊆ u.names := List.Subset.trans htokens hvalue.table_extends.names_subset
    have hbody : (fieldExpr f.name v).ruleNames ⊆ u.names :=
      List.Subset.trans (Expr.ruleNames_field _ _) (List.cons_subset.mpr ⟨htokens' (by decide), hv⟩)
    have hpush := RuleTable.extends_push u (keyName (fieldPath t used path f.name)) (fieldExpr f.name v)
    obtain ⟨ht', hkeys⟩ := hrest.ordered (List.Subset.trans htokens' hpush.names_subset)
      (hu.push (RuleTable.contains_eq_false_iff.mp hkey) hbody)
    refine ⟨ht', List.cons_subset.mpr ⟨hrest.table_extends.names_subset ?_, hkeys⟩⟩
    exact RuleTable.mem_names_push.mpr (.inr rfl)

end

/-! ### The whole grammar -/

theorem tokenNames_subset_seedTable (settings : GrammarSettings) : tokenNames ⊆ (seedTable settings).names := by
  rw [names_seedTable]
  exact List.subset_append_left _ _

theorem ordered_seedTable (settings : GrammarSettings) : (seedTable settings).Ordered := by
  have hchar : RuleTable.Ordered ⟨[("char", charBody settings.delimiters)]⟩ :=
    RuleTable.Ordered.nil.push List.not_mem_nil (List.nil_subset _)
  have htokens : RuleTable.Ordered ⟨[("char", charBody settings.delimiters), ("space", spaceBody)]⟩ :=
    hchar.push (by simp [RuleTable.names]) (List.nil_subset _)
  unfold seedTable
  split
  · have hsafe := htokens.push (show "think-safe-lt" ∉ _ by simp [RuleTable.names])
      (show (safeLtExpr settings.thinkingEnd).ruleNames ⊆ _ by simp [Expr.ruleNames_safeLtExpr])
    have hunit := hsafe.push (show "think-char" ∉ _ by simp [RuleTable.names, RuleTable.push])
      (show (Expr.oneOf .spaced [.cls (.noneOf ['<']), .rule "think-safe-lt"]).ruleNames ⊆ _ by
        simp [Expr.ruleNames])
    exact hunit.push (show "think-content" ∉ _ by simp [RuleTable.names, RuleTable.push])
      (show (Expr.repeated (.rule "think-char") (.between 0 settings.maxThinkingLength)).ruleNames ⊆ _ by
        simp [Expr.ruleNames])
  · rwa [List.append_nil]

theorem ruleNames_thinkingEntry (start stop : String) :
    (thinkingEntry start stop).ruleNames = ["root", "think-content", "space", "root"] := rfl

/-- The entry rules come last, the one of the thinking block behind `root`. -/
theorem ordered_finishTable {shape : Shape} {e : Expr} {t : RuleTable} (hc : Compiles settings shape "root" (seedTable settings) e t) :
    (finishTable settings e t).Ordered ∧ "root" ∈ (finishTable settings e t).names ∧
      (finishTable settings e t).names.getLast? = some settings.entryRule := by
  obtain ⟨ht, he⟩ := hc.ordered (tokenNames_subset_seedTable settings) (ordered_seedTable settings)
  have hthink := thinkingRoot_not_mem_names hc
  have hfirst := hc.table_extends.names_subset
  -- the table with the rule `root`, which the run has added itself if the shape is a string
  obtain ⟨u, hu, hordered, hnames, hlast, hnew⟩ : ∃ u, (if e = .rule "root" then t else t.push "root" e) = u ∧ u.Ordered ∧
      t.names ⊆ u.names ∧ u.names.getLast? = some "root" ∧ "thinking-root" ∉ u.names := by
    refine ⟨_, rfl, ?_⟩
    split
    · next heq =>
      subst heq
      obtain ⟨-, -, body, -, -, rfl⟩ := hc.of_rule
      rw [RuleTable.ensure_of_not_mem root_not_mem_seedTable] at ht hthink ⊢
      exact ⟨ht, List.Subset.refl _, by simp, hthink⟩
    · next hne =>
      have hroot : "root" ∉ t.names := hc.path_not_mem_names root_not_mem_seedTable hne
      exact ⟨ht.push hroot he, (RuleTable.extends_push ..).names_subset, by simp, by simpa using hthink⟩
  have hroot : "root" ∈ u.names := List.mem_of_getLast? hlast
  rw [finishTable, hu]
  split
  · next hthinking =>
    have hcontent : "think-content" ∈ (seedTable settings).names := by simp [names_seedTable, hthinking]
    have hspace : "space" ∈ (seedTable settings).names := tokenNames_subset_seedTable settings (by decide)
    refine ⟨hordered.push hnew ?_, by simp [hroot], by simp [GrammarSettings.entryRule, hthinking]⟩
    rw [ruleNames_thinkingEntry]
    simpa [hroot] using ⟨hnames (hfirst hcontent), hnames (hfirst hspace)⟩
  · next hthinking => exact ⟨hordered, hroot, by rw [hlast, GrammarSettings.entryRule, if_neg hthinking]⟩

/-- The text of a grammar without raw formats is read back as rules of distinct names, in each of which only names of rules
before it occur; so no chain of references comes back to where it started. One rule is `root`, and the last one is the one to
start from. -/
theorem grammar_ordered {shape : Shape} {table : RuleTable} (h : (shape.grammar settings).1 = .ok table)
    (hraws : shape.every Shape.hasNoRawFormat = true) :
    ∃ read, readRules table.render = some read ∧ read.names.Nodup ∧
      (∀ before r after, read.rules = before ++ r :: after → r.2.ruleNames ⊆ before.map (·.1)) ∧
      (∀ n, ¬ Relation.TransGen read.Refers n n) ∧
      "root" ∈ read.names ∧ read.names.getLast? = some settings.entryRule := by
  obtain ⟨e, t, hc, rfl⟩ := exists_compiles_of_grammar h
  obtain ⟨hordered, hroot, hlast⟩ := ordered_finishTable hc
  have hread := hordered.canonical
  refine ⟨_, readRules_grammar_of_noRawFormat h hraws, hread.nodup, hread.earlier, hread.not_refers_self, ?_⟩
  rw [RuleTable.names_canonical]
  exact ⟨hroot, hlast⟩

/-- A record with a list of words from a choice, behind a thinking block. -/
theorem grammar_ordered_words :
    (Shape.object "Note" [⟨"words", .array (.string { allowed := ["a", "b"] }) none (some 3) "words", none⟩]).every
        Shape.hasNoRawFormat = true ∧
    ∃ table, ((Shape.object "Note" [⟨"words", .array (.string { allowed := ["a", "b"] }) none (some 3) "words", none⟩]).grammar
        { includeThinking := true }).1 = .ok table ∧
      ∃ read, readRules table.render = some read ∧ read.names.Nodup ∧
        (∀ before r after, read.rules = before ++ r :: after → r.2.ruleNames ⊆ before.map (·.1)) ∧
        (∀ n, ¬ Relation.TransGen read.Refers n n) ∧
        "root" ∈ read.names ∧ read.names.getLast? = some "thinking-root" := by
  have hraws : (Shape.object "Note" [⟨"words", .array (.string { allowed := ["a", "b"] }) none (some 3) "words", none⟩]).every
      Shape.hasNoRawFormat = true := by decide
  have hgrammar : ∃ table, ((Shape.object "Note"
      [⟨"words", .array (.string { allowed := ["a", "b"] }) none (some 3) "words", none⟩]).grammar
        { includeThinking := true }).1 = .ok table := ⟨_, rfl⟩
  obtain ⟨table, h⟩ := hgrammar
  exact ⟨hraws, table, h, grammar_ordered h hraws⟩

end RecordGrammar
