import RecordGrammar.Proofs.Grammar.Order

/-!
# Counting references

`Compiles.count_referrers`: in what a run adds and gives, the name of a key rule is mentioned as often as it is given to a
rule. Only objects mention such names, each of them the names it has just given to its fields. So in a whole grammar there is
one place where a key rule is referred to (`Compiles.length_referrers`).
-/

namespace RecordGrammar
open Reading

/-! ### Who refers to a name -/

namespace RuleTable
variable {t : RuleTable} {name n : String} {body : Expr}

/-- The rules that refer to a name, each as often as it does. -/
def referrers (t : RuleTable) (n : String) : List String :=
  t.rules.flatMap fun r => List.replicate (r.2.ruleNames.count n) r.1

theorem referrers_push (t : RuleTable) (name : String) (body : Expr) (n : String) :
    (t.push name body).referrers n = t.referrers n ++ List.replicate (body.ruleNames.count n) name := by
  simp [referrers, push]

theorem mem_referrers : name ∈ t.referrers n ↔ t.Refers name n := by
  simp only [Refers, referrers, List.mem_flatMap, List.mem_replicate, ne_eq, List.count_eq_zero, Decidable.not_not]
  constructor
  · rintro ⟨⟨m, body⟩, hr, hn, rfl⟩
    exact ⟨body, hr, hn⟩
  · rintro ⟨body, hr, hn⟩
    exact ⟨(name, body), hr, hn, rfl⟩

theorem referrers_canonical (t : RuleTable) (n : String) : t.canonical.referrers n = t.referrers n := by
  simp only [referrers, canonical, List.flatMap_map, Expr.ruleNames_canonical]

theorem Closed.referrers_eq_nil (h : t.Closed) (hn : n ∉ t.names) : t.referrers n = [] := by
  refine List.eq_nil_iff_forall_not_mem.mpr fun m hm => ?_
  obtain ⟨body, hr, hmem⟩ := mem_referrers.mp hm
  exact hn (h _ hr hmem)

end RuleTable

namespace Expr
variable {n : String}

theorem count_ruleNames_object (hn : n ≠ "space") (keys : List String) : (objectExpr keys).ruleNames.count n = keys.count n := by
  have hfields : (((keys.map rule).intersperse (row .spaced [word ",", .space])).flatMap ruleNames).count n = keys.count n := by
    induction keys with
    | nil => rfl
    | cons k keys ih =>
      cases keys with
      | nil => rfl
      | cons k' keys =>
        simp only [List.map_cons, List.intersperse_cons_cons, List.flatMap_cons, List.count_append] at ih ⊢
        rw [ih]
        simp [ruleNames, word, space, List.count_cons, Ne.symm hn]
        omega
  rw [objectExpr, ruleNames_row, List.flatMap_append, List.flatMap_append, List.count_append, List.count_append, hfields]
  simp [ruleNames, word, space, Ne.symm hn]

theorem count_ruleNames_field (hn : n ≠ "space") (name : String) (value : Expr) :
    (fieldExpr name value).ruleNames.count n = value.ruleNames.count n := by
  simp [fieldExpr, ruleNames, jsonText, word, space, Ne.symm hn]

end Expr

/-! ### Key rules -/

variable {settings : GrammarSettings} (k : String)

/-- A name that does not end like one of a key rule is none. -/
theorem keyName_ne {n : String} (h : n.toList.getLast? ≠ some 'v') : keyName k ≠ n := by
  rintro rfl
  simp [keyName] at h

theorem keyName_not_mem_tokenNames : keyName k ∉ tokenNames := by
  simp [keyName_ne]

theorem count_ruleNames_of_tokens {e : Expr} (he : e.ruleNames ⊆ tokenNames) : e.ruleNames.count (keyName k) = 0 :=
  List.count_eq_zero.mpr fun hn => keyName_not_mem_tokenNames k (he hn)

theorem count_ruleNames_array (path : String) (lo hi : Nat) : (arrayExpr (itemName path) lo hi).ruleNames.count (keyName k) = 0 := by
  refine List.count_eq_zero.mpr fun hn => ?_
  rcases List.mem_cons.mp (Expr.ruleNames_array _ _ _ hn) with hn | hn
  · exact keyName_ne k (by decide) hn
  · exact itemName_ne_keyName (List.mem_singleton.mp hn).symm

theorem count_ruleNames_thinkingEntry (start stop : String) : (thinkingEntry start stop).ruleNames.count (keyName k) = 0 := by
  rw [ruleNames_thinkingEntry, List.count_eq_zero]
  simp [keyName_ne]

variable {k}

mutual

/-- The name of a key rule is mentioned more often than before if it has been given to a rule, once for each. -/
theorem Compiles.count_referrers : ∀ {s : Shape} {path : String} {t t' : RuleTable} {e : Expr},
    Compiles settings s path t e t' → path ∉ t.names →
    (t'.referrers (keyName k)).length + e.ruleNames.count (keyName k) + t.names.count (keyName k) =
      (t.referrers (keyName k)).length + t'.names.count (keyName k)
  | _, path, t, _, _, .namedString h, hpath => by
    rw [RuleTable.ensure_of_not_mem hpath, RuleTable.referrers_push, RuleTable.names_push,
      count_ruleNames_of_tokens k h.ruleNames]
    simp [Expr.ruleNames]
    omega
  | _, _, _, _, _, .plainString _, _ => by
    rw [count_ruleNames_of_tokens k (Expr.ruleNames_boundedString _ _), Nat.add_zero]
  | .scalar kind _, _, _, _, _, .scalar, _ => by
    rw [count_ruleNames_of_tokens k (Expr.ruleNames_scalar kind), Nat.add_zero]
  | _, _, _, _, _, .enum, _ => by
    rw [count_ruleNames_of_tokens k (Expr.ruleNames_anyText _), Nat.add_zero]
  | _, _, _, _, _, .sharedArray _ _, _ => by
    rw [count_ruleNames_array, Nat.add_zero]
  | _, path, t, _, _, .array (u := u) (v := v) hnew helem _, _ => by
    have hnew := RuleTable.contains_eq_false_iff.mp hnew
    have ih := helem.count_referrers hnew
    have hitem : itemName path ≠ keyName k := itemName_ne_keyName
    rw [count_ruleNames_array, Nat.add_zero]
    -- the elements' own rule is no key rule, so it makes no difference where it is added
    split
    · next hv =>
      have hv : v.ruleNames.count (keyName k) = 0 := by
        simp [hv, Expr.ruleNames, hitem]
      omega
    · next hv =>
      rw [RuleTable.ensure_of_not_mem (helem.path_not_mem_names hnew hv), RuleTable.referrers_push, RuleTable.names_push]
      simp [hitem]
      omega
  | _, _, _, _, _, .object h, _ => by
    rw [Expr.count_ruleNames_object (keyName_ne k (by decide))]
    exact h.count_referrers

theorem CompilesFields.count_referrers : ∀ {fields : List (Field Shape)} {path : String} {used keys : List String}
    {t t' : RuleTable}, CompilesFields settings fields path used t keys t' →
    (t'.referrers (keyName k)).length + keys.count (keyName k) + t.names.count (keyName k) =
      (t.referrers (keyName k)).length + t'.names.count (keyName k)
  | _, _, _, _, _, _, .nil => rfl
  | f :: _, path, used, _, t, _, .cons (u := u) (v := v) hvalue hkey hrest => by
    have hval := hvalue.count_referrers (fieldPath_not_mem_names _ _ _ _)
    have ih := hrest.count_referrers
    rw [RuleTable.referrers_push, RuleTable.names_push, Expr.count_ruleNames_field (keyName_ne k (by decide)),
      List.length_append, List.length_replicate, List.count_append, List.count_singleton] at ih
    rw [List.count_cons]
    omega

end

/-- In a whole grammar, each key rule is mentioned once. -/
theorem Compiles.length_referrers {shape : Shape} {e : Expr} {t : RuleTable}
    (hc : Compiles settings shape "root" (seedTable settings) e t) (hn : keyName k ∈ t.names) :
    ((finishTable settings e t).referrers (keyName k)).length = 1 := by
  obtain ⟨hordered, -⟩ := hc.ordered (tokenNames_subset_seedTable settings) (ordered_seedTable settings)
  have hseed : keyName k ∉ (seedTable settings).names := by
    intro hmem
    have := mem_names_seedTable hmem
    simp [keyName_ne] at this
  have hcount := hc.count_referrers (k := k) root_not_mem_seedTable
  rw [(closed_seedTable settings).referrers_eq_nil hseed, List.count_eq_zero.mpr hseed,
    List.count_eq_one_of_mem hordered.nodup hn] at hcount
  -- of the entry rules only `root` can mention the name, with what the run has given
  have hroot : ((if e = .rule "root" then t else t.push "root" e).referrers (keyName k)).length = 1 := by
    split
    · next he =>
      have he : e.ruleNames.count (keyName k) = 0 := by
        rw [he, List.count_eq_zero]
        simp [Expr.ruleNames, keyName_ne]
      simpa [he] using hcount
    · rw [RuleTable.referrers_push, List.length_append, List.length_replicate]
      simpa using hcount
  rw [finishTable]
  split
  · rw [RuleTable.referrers_push, count_ruleNames_thinkingEntry, List.length_append, List.length_replicate, Nat.add_zero, hroot]
  · exact hroot

end RecordGrammar
