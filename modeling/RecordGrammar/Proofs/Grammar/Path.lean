import RecordGrammar.Proofs.Grammar.Run

/-!
# Paths and rule names

Names of rules are paths with an ending. `searches_iff`: the search for the path of a field ends, at the first
one that is free, since each name in use and each rule rules out few candidates. The rest tells the
names apart: an `-item` name is no `-kv` name, and what lies under a path is longer than it.
-/

namespace RecordGrammar

/-! ### The search for a free path -/

theorem toString_nat_inj {m n : Nat} (h : toString m = toString n) : m = n := by
  have hd : Nat.toDigits 10 m = Nat.toDigits 10 n := by
    rw [Nat.toString_eq_repr, Nat.toString_eq_repr] at h
    rw [← Nat.toList_repr, ← Nat.toList_repr, h]
  rw [← Nat.ofDigitChars_ten_toDigits (n := m), hd, Nat.ofDigitChars_ten_toDigits]

theorem pathCandidate_inj {base : String} {i j : Nat} (h : pathCandidate base i = pathCandidate base j) :
    i = j := by
  have hne : ∀ n, base ≠ base ++ "-" ++ toString (n + 1) := fun n hn => by
    have := congrArg (fun s => s.toList.length) hn
    simp at this
  rcases i with _ | i <;> rcases j with _ | j
  · rfl
  · exact absurd h (hne _)
  · exact absurd h.symm (hne _)
  · have := toString_nat_inj ((String.append_right_inj _).mp h)
    omega

/-- The names that rule candidates out, with `-kv` behind them. -/
def blockers (t : RuleTable) (used : List String) : List String :=
  used.map keyName ++ t.names.map keyName ++ t.names

theorem length_blockers (t : RuleTable) (used : List String) :
    (blockers t used).length = used.length + 2 * t.size := by
  simp only [blockers, List.length_append, List.length_map, RuleTable.names, RuleTable.size]
  omega

theorem isFreePath_iff {t : RuleTable} {used : List String} {path : String} :
    isFreePath t used path = true ↔ path ∉ used ∧ path ∉ t.names ∧ keyName path ∉ t.names := by
  simp [isFreePath, ← RuleTable.contains_iff, and_assoc]

theorem keyName_mem_blockers {t : RuleTable} {used : List String} {path : String}
    (h : isFreePath t used path = false) : keyName path ∈ blockers t used := by
  have h : ¬ (path ∉ used ∧ path ∉ t.names ∧ keyName path ∉ t.names) := fun hf => by
    rw [isFreePath_iff.mpr hf] at h
    cases h
  simp only [blockers, List.mem_append, List.mem_map]
  by_cases hu : path ∈ used
  · exact .inl (.inl ⟨path, hu, rfl⟩)
  by_cases hn : path ∈ t.names
  · exact .inl (.inr ⟨path, hn, rfl⟩)
  · exact .inr (Decidable.not_not.mp fun hk => h ⟨hu, hn, hk⟩)

/-- Among one candidate more than there are blockers, one is free. -/
theorem exists_isFreePath (t : RuleTable) (used : List String) (base : String) :
    ∃ i < (blockers t used).length + 1, isFreePath t used (pathCandidate base i) = true := by
  refine Classical.byContradiction fun hno => ?_
  have hno : ∀ i < (blockers t used).length + 1, isFreePath t used (pathCandidate base i) = false :=
    fun i hi => Bool.eq_false_iff.mpr fun hf => hno ⟨i, hi, hf⟩
  have hnodup : ((List.range ((blockers t used).length + 1)).map fun i => keyName (pathCandidate base i)).Nodup :=
    List.Pairwise.map _ (fun i j hne h => hne (pathCandidate_inj ((String.append_left_inj _).mp h))) List.nodup_range
  have hle := hnodup.length_le_of_subset fun n hn => by
    obtain ⟨i, hi, rfl⟩ := List.mem_map.mp hn
    exact keyName_mem_blockers (hno i (List.mem_range.mp hi))
  simp only [List.length_map, List.length_range] at hle
  omega

/-- The path found is the first candidate that is free. -/
theorem exists_firstFree (t : RuleTable) (used : List String) (base : String) :
    ∃ n, freePath t used base = pathCandidate base n ∧ isFreePath t used (pathCandidate base n) = true ∧
      ∀ i < n, isFreePath t used (pathCandidate base i) = false := by
  rw [freePath, ← length_blockers]
  match hf : (List.range (blockers t used).length).find? fun i => isFreePath t used (pathCandidate base i) with
  | some n =>
    obtain ⟨hfree, -, hbefore⟩ := List.find?_range_eq_some.mp hf
    refine ⟨n, rfl, hfree, fun i hi => ?_⟩
    simpa using hbefore i hi
  | none =>
    obtain ⟨n, hn, hfree⟩ := exists_isFreePath t used base
    have hall : ∀ i < (blockers t used).length, isFreePath t used (pathCandidate base i) = false := by
      simpa using hf
    have hn : n = (blockers t used).length := by
      rcases Nat.lt_or_ge n (blockers t used).length with hlt | hge
      · rw [hall n hlt] at hfree; cases hfree
      · omega
    subst hn
    exact ⟨_, rfl, hfree, hall⟩

theorem isFreePath_freePath (t : RuleTable) (used : List String) (base : String) :
    isFreePath t used (freePath t used base) = true := by
  obtain ⟨n, hn, hfree, -⟩ := exists_firstFree t used base
  rw [hn]
  exact hfree

/-- The search for a path has come to the `i`-th candidate, and it ends at `p`. -/
inductive Searches (t : RuleTable) (used : List String) (base : String) : Nat → String → Prop
  | found {i : Nat} (h : isFreePath t used (pathCandidate base i) = true) :
    Searches t used base i (pathCandidate base i)
  | next {i : Nat} {p : String} (h : isFreePath t used (pathCandidate base i) = false)
    (hrest : Searches t used base (i + 1) p) : Searches t used base i p

namespace Searches
variable {t : RuleTable} {used : List String} {base p q : String} {i n : Nat}

theorem det (h : Searches t used base i p) (h' : Searches t used base i q) : p = q := by
  induction h with
  | found hfree =>
    cases h' with
    | found => rfl
    | next htaken => rw [hfree] at htaken; cases htaken
  | next htaken _ ih =>
    cases h' with
    | found hfree => rw [hfree] at htaken; cases htaken
    | next _ hrest => exact ih hrest

theorem of_first (hfree : isFreePath t used (pathCandidate base n) = true)
    (hbefore : ∀ i < n, isFreePath t used (pathCandidate base i) = false) (hi : i ≤ n) :
    Searches t used base i (pathCandidate base n) := by
  -- backwards from the candidate that is free
  induction hi using Nat.decreasingInduction with
  | self => exact .found hfree
  | of_succ k hk ih => exact .next (hbefore k hk) ih

/-- Only which candidates are free counts. -/
theorem congr {u : RuleTable} (h : Searches t used base i p)
    (hsame : ∀ i, isFreePath t used (pathCandidate base i) = isFreePath u used (pathCandidate base i)) :
    Searches u used base i p := by
  induction h with
  | found hfree => exact .found ((hsame _).symm.trans hfree)
  | next htaken _ ih => exact .next ((hsame _).symm.trans htaken) ih

end Searches

/-- The search for a path ends, at the one that is found. -/
theorem searches_iff {t : RuleTable} {used : List String} {base p : String} :
    Searches t used base 0 p ↔ p = freePath t used base := by
  obtain ⟨n, hn, hfree, hbefore⟩ := exists_firstFree t used base
  have hends : Searches t used base 0 (freePath t used base) := hn ▸ .of_first hfree hbefore (Nat.zero_le n)
  constructor
  · intro h
    exact h.det hends
  · rintro rfl
    exact hends

theorem freePath_eq (t : RuleTable) (used : List String) (base : String) :
    ∃ i, freePath t used base = pathCandidate base i := ⟨_, rfl⟩

section
variable (t : RuleTable) (used : List String) (path name : String)

theorem fieldPath_not_mem_names : fieldPath t used path name ∉ t.names :=
  (isFreePath_iff.mp (isFreePath_freePath t used _)).2.1

theorem keyName_fieldPath_not_mem_names : keyName (fieldPath t used path name) ∉ t.names :=
  (isFreePath_iff.mp (isFreePath_freePath t used _)).2.2

end

/-! ### Names -/

theorem itemName_inj {p q : String} : itemName p = itemName q ↔ p = q := String.append_left_inj _

theorem keyName_inj {p q : String} : keyName p = keyName q ↔ p = q := String.append_left_inj _

theorem itemName_ne_keyName {p q : String} : itemName p ≠ keyName q := fun h => by
  have := congrArg (fun s => s.toList.getLast?) h
  simp at this

/-- The name lies under the path: it is the path with a dash and more behind it. -/
def Under (path name : String) : Prop := ∃ r, name = path ++ "-" ++ r

namespace Under
variable {p q n : String}

theorem length_lt (h : Under p n) : p.length < n.length := by
  obtain ⟨r, rfl⟩ := h
  have : ("-" : String).length = 1 := rfl
  simp only [String.length_append]
  omega

theorem ne (h : Under p n) : n ≠ p := fun he => by
  have := h.length_lt
  rw [he] at this
  omega

theorem trans (h : Under p q) (h' : Under q n) : Under p n := by
  obtain ⟨r, rfl⟩ := h
  obtain ⟨r', rfl⟩ := h'
  exact ⟨r ++ "-" ++ r', by simp only [String.append_assoc]⟩

theorem item (p : String) : Under p (itemName p) := ⟨"item", by rw [String.append_assoc]; rfl⟩

theorem key (p : String) : Under p (keyName p) := ⟨"kv", by rw [String.append_assoc]; rfl⟩

theorem candidate (p name : String) (i : Nat) : Under p (pathCandidate (p ++ "-" ++ Segment.ofName name) i) := by
  rw [pathCandidate]
  split
  · exact ⟨_, rfl⟩
  · exact ⟨Segment.ofName name ++ "-" ++ toString (i + 1), by simp only [String.append_assoc]⟩

theorem field (t : RuleTable) (used : List String) (p name : String) : Under p (fieldPath t used p name) := by
  obtain ⟨i, h⟩ := freePath_eq t used (p ++ "-" ++ Segment.ofName name)
  rw [fieldPath, h]
  exact .candidate p name i

/-- The key rule of a path is named like nothing under what lies under the path. -/
theorem not_keyName (h : Under p q) : ¬ Under q (keyName p) := by
  obtain ⟨r, rfl⟩ := h
  rintro ⟨r', h⟩
  have h : ("-kv" : String) = "-" ++ r ++ "-" ++ r' := by
    simpa only [keyName, String.append_assoc, String.append_right_inj] using h
  have h : ['k', 'v'] = r.toList ++ '-' :: r'.toList := by
    simpa using congrArg String.toList h
  have : '-' ∈ ['k', 'v'] := by rw [h]; simp
  simp at this

/-- Nothing under the elements of the array at a path is named like the key rule of the path. -/
theorem not_item_keyName : ¬ Under (itemName p) (keyName p) := not_keyName (item p)

end Under

/-- Only a field called `kv` can get the name of the key rule of its object's path for its own path. -/
theorem segment_of_fieldPath_eq_keyName {t : RuleTable} {used : List String} {p name : String}
    (h : fieldPath t used p name = keyName p) : Segment.ofName name = "kv" := by
  obtain ⟨i, hi⟩ := freePath_eq t used (p ++ "-" ++ Segment.ofName name)
  rw [fieldPath, hi, pathCandidate] at h
  split at h
  · have h : ("-" : String) ++ Segment.ofName name = "-kv" := by
      simpa only [keyName, String.append_assoc, String.append_right_inj] using h
    have h : (Segment.ofName name).toList = ['k', 'v'] := by simpa using congrArg String.toList h
    exact String.toList_inj.mp h
  · exact absurd ⟨_, h.symm⟩ (Under.not_keyName ⟨Segment.ofName name, rfl⟩)

theorem keyName_ne_self {p : String} : keyName p ≠ p := (Under.key p).ne

end RecordGrammar
