import RecordGrammar.Proofs.Grammar.GrammarText

/-!
# The texts of an array

`array_outcome`: once the elements of an array have a rule, its bounds alone tell what compiling it comes to. If they are
refused, that is the error; if not, the expression stands for lists of just the lengths between them, whatever the
elements and the white space stand for. How the bounds are written does not matter, and no repetition has its counts in the wrong
order.
-/

namespace RecordGrammar
open Reading Compiling

variable {settings : GrammarSettings}

/-! ### Repetitions -/

namespace Expr

/-- The counts of the repetitions in an expression. -/
def repetitions : Expr → List Times
  | repeated e times => times :: e.repetitions
  | seq _ a b => a.repetitions ++ b.repetitions
  | alt _ a b => a.repetitions ++ b.repetitions
  | group e => e.repetitions
  | empty | literal _ | cls _ | rule _ | raw _ => []

theorem repetitions_andThen (gap : Gap) (a b : Expr) : (andThen gap a b).repetitions = a.repetitions ++ b.repetitions := by
  induction a with
  | seq _ x y _ ihy => rw [andThen, repetitions, ihy, repetitions, List.append_assoc]
  | empty | literal | cls | rule | alt | group | repeated | raw => rfl

theorem repetitions_row (gap : Gap) (es : List Expr) : (row gap es).repetitions = es.flatMap repetitions := by
  fun_induction row gap es with
  | case1 => rfl
  | case2 e => exact (List.append_nil _).symm
  | case3 e es _ ih => rw [repetitions_andThen, ih, List.flatMap_cons]

theorem inOrder_array (item : String) {lo hi : Nat} (hle : lo ≤ hi) :
    ∀ times ∈ (arrayExpr item lo hi).repetitions, times.InOrder := by
  have hframe : ∀ es : List Expr, (row .spaced ([word "[", .space] ++ es ++ [word "]", .space])).repetitions =
      es.flatMap repetitions := by
    intro es
    simp [repetitions_row, repetitions, word, space]
  rw [arrayExpr, hframe]
  split_ifs <;> simp [repetitions, repetitions_row, word, space, maybe, Times.InOrder] <;> omega

theorem canonical_array (item : String) (lo hi : Nat) : (arrayExpr item lo hi).canonical = arrayExpr item lo hi := by
  have hmore : (group (row .spaced [word ",", .space, rule item])).canonical = group (row .spaced [word ",", .space, rule item]) := by
    rfl
  rw [arrayExpr, canonical_row, List.map_append, List.map_append]
  congr 2
  split_ifs <;> rfl

end Expr

/-! ### Compiling an array -/

/-- An array of `k` elements: in brackets, with commas between them, and white space behind each sign. -/
def bracketed (gap element : Language Char) (k : Nat) : Language Char :=
  just "[" * gap * joined (just "," * gap) (List.replicate k element) * (just "]" * gap)

/-- The elements of the array at a path need not be compiled, or they can be. -/
def HasItems (settings : GrammarSettings) (element : Shape) (path : String) (p : Progress) : Prop :=
  p.table.contains (itemName path) = true ∨
    ∃ value q, (compileShape settings element (itemName path)).exec p = (.ok value, q)

/-- With the elements settled, what is left of an array is its bounds. -/
theorem HasItems.exec_array {element : Shape} {path : String} {p : Progress} (h : HasItems settings element path p)
    (lo hi : Option Nat) (name : String) :
    ∃ q, (compileShape settings (.array element lo hi name) path).exec p = exec (do
      let (min, max) ← arrayLimits settings lo hi path
      return arrayExpr (itemName path) min max) q := by
  rw [compileShape, exec_bind, exec_hasRule]
  by_cases hold : p.table.contains (itemName path) = true
  · refine ⟨p, ?_⟩
    simp only [hold, ↓reduceIte]
  obtain ⟨value, q, hvalue⟩ := h.resolve_left hold
  simp only [hold, Bool.false_eq_true, ↓reduceIte]
  rw [exec_bind_ok hvalue]
  by_cases hnamed : value = .rule (itemName path)
  · refine ⟨q, ?_⟩
    simp only [hnamed, ne_eq, not_true_eq_false, ↓reduceIte]
  · obtain ⟨ns, hitem⟩ := exec_ensureRule (itemName path) value q
    refine ⟨⟨q.table.ensure (itemName path) value, ns⟩, ?_⟩
    simp only [hnamed, ne_eq, not_false_eq_true, ↓reduceIte]
    rw [exec_bind_ok hitem]

/-- What compiling an array comes to once its elements are settled: its bounds are refused if they are reversed and reversed ones
are not mended, and otherwise it stands for the lists of its elements of just the lengths that the mended bounds allow. -/
theorem array_outcome {element : Shape} {path : String} {p : Progress} (h : HasItems settings element path p)
    (minItems maxItems : Option Nat) (name : String) {lo hi : Nat} (hlo : minItems.getD settings.items.min = lo)
    (hhi : maxItems.getD settings.items.max = hi) :
    match ((compileShape settings (.array element minItems maxItems name) path).exec p).1 with
    | .error e => (hi < lo ∧ settings.clampArrayBounds = false) ∧ e = .reversedItems path lo hi
    | .ok e => ¬ (hi < lo ∧ settings.clampArrayBounds = false) ∧
      (∀ body w, Expr.Derives body e w ↔ ∃ k, min lo hi ≤ k ∧ k ≤ hi ∧
        w ∈ bracketed (Expr.space.texts body) ((Expr.rule (itemName path)).texts body) k) ∧
      (∀ times ∈ e.repetitions, times.InOrder) ∧ (IsName path → readExpr e.chars = some e) := by
  subst hlo hhi
  obtain ⟨q, hexec⟩ := h.exec_array minItems maxItems name
  have hend := @arrayLimits_ended settings minItems maxItems path q
  rw [hexec, exec_bind]
  match hr : (arrayLimits settings minItems maxItems path).exec q with
  | (.error e, _) =>
    rw [hr] at hend
    obtain ⟨hrev, hclamp, he⟩ := hend
    exact ⟨⟨hrev, hclamp⟩, he⟩
  | (.ok r, _) =>
    rw [hr] at hend
    obtain ⟨rfl, -, hmended⟩ := hend
    have hle := clampedLimits_le minItems maxItems settings.items
    refine ⟨?_, ?_, Expr.inOrder_array _ hle, ?_⟩
    · rintro ⟨hrev, hclamp⟩
      rw [hmended hrev] at hclamp
      cases hclamp
    · intro body w
      change w ∈ (arrayExpr (itemName path) (clampedLimits minItems maxItems settings.items).1
        (clampedLimits minItems maxItems settings.items).2).texts body ↔ _
      rw [Expr.texts_arrayExpr _ hle]
      exact mul_listOf_mul _ _ _ _ _ _
    · intro hpath
      have hread := readExpr_chars (Expr.inRow_array hpath.item hle).1.choice_of_row
      rwa [Expr.canonical_array] at hread

/-- Reversed bounds that are mended leave one length. -/
theorem array_outcome_mended :
    HasItems {} (.scalar .integer "integer") "root" ⟨seedTable {}, []⟩ ∧
    ((compileShape {} (.array (.scalar .integer "integer") (some 5) (some 3) "array") "root").exec ⟨seedTable {}, []⟩).1 =
      .ok (arrayExpr "root-item" 3 3) ∧
    ∀ body w, Expr.Derives body (arrayExpr "root-item" 3 3) w ↔ ∃ k, min 5 3 ≤ k ∧ k ≤ 3 ∧
      w ∈ bracketed (Expr.space.texts body) ((Expr.rule "root-item").texts body) k := by
  have h : HasItems {} (.scalar .integer "integer") "root" ⟨seedTable {}, []⟩ := .inr ⟨_, _, rfl⟩
  have houtcome := array_outcome h (some 5) (some 3) "array" rfl rfl
  exact ⟨h, rfl, houtcome.2.1⟩

end RecordGrammar
