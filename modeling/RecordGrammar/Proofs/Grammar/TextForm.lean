import RecordGrammar.Proofs.Grammar.Literals
import RecordGrammar.Proofs.Grammar.Order

/-!
# The form of a grammar text

Texts of the user stand in a grammar in literals, in classes and in names of rules. `grammar_text_form`: whatever they are,
the lines of a grammar are its rules, each falls apart where its name ends, and the body is an expression by the rules of the
notation. These are given as a grammar of texts, `WellFormed`, with a clause for each kind of expression.
-/

namespace RecordGrammar
open Reading

/-! ### Lines -/

/-- What stands before the first occurrence of `mark`, and what stands behind it. -/
def Text.cutAtMark? (mark : List Char) : List Char → Option (List Char × List Char)
  | [] => if mark = [] then some ([], []) else none
  | c :: cs =>
    if mark.isPrefixOf (c :: cs) then some ([], (c :: cs).drop mark.length)
    else (cutAtMark? mark cs).map fun r => (c :: r.1, r.2)

/-- A text is cut where the mark stands if no character before it starts the mark. -/
theorem Text.cutAtMark?_append {m : Char} {name : List Char} (h : m ∉ name) (ms rest : List Char) :
    cutAtMark? (m :: ms) (name ++ (m :: ms) ++ rest) = some (name, rest) := by
  induction name with
  | nil =>
    show cutAtMark? (m :: ms) (m :: (ms ++ rest)) = some ([], rest)
    have hprefix : (m :: ms).isPrefixOf (m :: (ms ++ rest)) = true := by
      rw [List.isPrefixOf_iff_prefix]
      exact List.prefix_append (m :: ms) rest
    rw [cutAtMark?, if_pos hprefix]
    simp
  | cons c name ih =>
    rw [List.mem_cons, not_or] at h
    have hprefix : (m :: ms).isPrefixOf (c :: (name ++ (m :: ms) ++ rest)) = false := by
      simp [List.isPrefixOf, h.1]
    rw [List.cons_append, List.cons_append, cutAtMark?, hprefix, ih h.2]
    rfl

/-- The name and the body on a line of a grammar. -/
def cutRule? (line : String) : Option (String × String) :=
  (Text.cutAtMark? " ::= ".toList line.toList).map fun r => (String.ofList r.1, String.ofList r.2)

theorem cutRule?_ruleText {r : Rule} (h : IsName r.1) : cutRule? (RuleTable.ruleText r) = some (r.1, r.2.render) := by
  have hblank : ' ' ∉ r.1.toList := by
    intro hmem
    have := h.2 _ hmem
    revert this
    decide
  rw [cutRule?, RuleTable.ruleText_toList, show " ::= ".toList = ' ' :: "::= ".toList from rfl, Text.cutAtMark?_append hblank]
  simp [Expr.render]

/-! ### The notation -/

/-- The name of a rule is a small letter, and then small letters, digits and dashes. -/
def isRuleName : List Char → Bool
  | [] => false
  | c :: cs => 'a' ≤ c && c ≤ 'z' && cs.all Segment.isSafe

/-- The text is an expression of the notation, where one may stand: between the bars of alternatives, in a row, or as a part
of one. An alternative may be empty; a name and what comes behind it are set apart by blanks. -/
inductive WellFormed : Place → List Char → Prop
  | literal {w s : List Char} (h : literal? w = some (s, [])) : WellFormed .item w
  | cls {w : List Char} {k : CharClass} (h : readStrictly w = some (.cls k)) : WellFormed .item w
  | name {w : List Char} (h : isRuleName w = true) : WellFormed .item w
  | group {w : List Char} (h : WellFormed .choice w) : WellFormed .item ('(' :: w ++ [')'])
  | optional {w : List Char} (h : WellFormed .item w) : WellFormed .item (w ++ ['?'])
  | some {w : List Char} (h : WellFormed .item w) : WellFormed .item (w ++ ['+'])
  | exactly {w : List Char} {n : Nat} (h : WellFormed .item w) :
    WellFormed .item (w ++ ('\x7b' :: (toString n).toList ++ ['\x7d']))
  | between {w : List Char} {m n : Nat} (h : WellFormed .item w) (hle : m ≤ n) :
    WellFormed .item (w ++ ('\x7b' :: (toString m).toList ++ ',' :: (toString n).toList ++ ['\x7d']))
  | nothing : WellFormed .row []
  | next {v g w : List Char} (hv : WellFormed .item v) (hg : ∀ c ∈ g, c = ' ') (hw : WellFormed .row w)
    (hname : isRuleName v = true → w ≠ [] → g ≠ []) : WellFormed .row (v ++ g ++ w)
  | last {w : List Char} (h : WellFormed .row w) : WellFormed .choice w
  | bar {v g k w : List Char} (hv : WellFormed .row v) (hg : ∀ c ∈ g, c = ' ') (hk : ∀ c ∈ k, c = ' ')
    (hw : WellFormed .choice w) : WellFormed .choice (v ++ (g ++ '|' :: k) ++ w)

namespace WellFormed
variable {l : Place} {w : List Char}

theorem row_of_item (h : WellFormed .item w) : WellFormed .row w := by
  have := h.next (g := []) (List.forall_mem_nil _) .nothing fun _ hne => absurd rfl hne
  simpa using this

theorem of_row (h : WellFormed .row w) (hl : l ≠ .item) : WellFormed l w := by
  cases l with
  | choice => exact .last h
  | row => exact h
  | item => exact absurd rfl hl

theorem of_item (h : WellFormed .item w) : WellFormed l w := by
  by_cases hl : l = .item
  · rw [hl]
    exact h
  · exact h.row_of_item.of_row hl

/-- A repetition of a part is one if it is in order. -/
theorem times (h : WellFormed .item w) {times : Times} (ht : times.InOrder) : WellFormed .item (w ++ times.chars) := by
  cases times with
  | optional => exact h.optional
  | some => exact h.some
  | exactly n => exact h.exactly
  | between m n =>
    obtain ⟨n, rfl⟩ := Int.eq_ofNat_of_zero_le ((Int.natCast_nonneg m).trans ht)
    exact h.between (Int.ofNat_le.mp ht)

end WellFormed

theorem isSafe_of_isRuleName {cs : List Char} (h : isRuleName cs = true) : ∀ c ∈ cs, Segment.isSafe c = true := by
  cases cs with
  | nil => cases h
  | cons c cs =>
    simp only [isRuleName, Bool.and_eq_true, decide_eq_true_eq, List.all_eq_true] at h
    refine List.forall_mem_cons.mpr ⟨?_, h.2⟩
    simp [Segment.isSafe, h.1]

theorem isRuleName_of_lengthens {p n : String} (hp : isRuleName p.toList = true) (h : Lengthens p n) :
    isRuleName n.toList = true := by
  obtain ⟨s, rfl, hs⟩ := h
  rw [String.toList_append]
  cases hcs : p.toList with
  | nil =>
    rw [hcs] at hp
    cases hp
  | cons c cs =>
    rw [hcs] at hp
    simp only [List.cons_append, isRuleName, Bool.and_eq_true, List.all_append, List.all_eq_true] at hp ⊢
    exact ⟨hp.1, hp.2, hs⟩

namespace Expr

/-- Of the parts of a row only the names look like names. -/
theorem Readable.not_isRuleName {e : Expr} (h : e.Readable .item) (hrule : ∀ n, e ≠ rule n) : isRuleName e.chars = false := by
  -- each other part shows a character that stands in no name
  have hchar {c : Char} (hc : c ∈ e.chars) (hsafe : Segment.isSafe c = false) : isRuleName e.chars = false := by
    rw [← Bool.not_eq_true]
    intro hname
    rw [isSafe_of_isRuleName hname c hc] at hsafe
    cases hsafe
  cases e with
  | empty => exact absurd rfl h
  | literal s => exact hchar (c := '"') (by simp [chars, literalText]) (by decide)
  | cls k => exact hchar (c := '[') (by simp [chars, CharClass.chars]) (by decide)
  | rule n => exact absurd rfl (hrule n)
  | seq => exact absurd rfl h.1
  | alt => cases h.1
  | group e => exact hchar (c := '(') (by simp [chars]) (by decide)
  | repeated e times =>
    cases times with
    | optional => exact hchar (c := '?') (by simp [chars, Times.chars]) (by decide)
    | some => exact hchar (c := '+') (by simp [chars, Times.chars]) (by decide)
    | exactly n => exact hchar (c := '\x7b') (by simp [chars, Times.chars]) (by decide)
    | between m n => exact hchar (c := '\x7b') (by simp [chars, Times.chars]) (by decide)
  | raw s => exact h.elim

/-- The text of a proper expression with proper names is one of the notation. -/
theorem Readable.wellFormed {l : Place} {e : Expr} (h : e.Readable l) (hnames : ∀ n ∈ e.ruleNames, isRuleName n.toList = true) :
    WellFormed l e.chars := by
  induction e generalizing l with
  | empty => exact WellFormed.nothing.of_row h
  | literal s =>
    refine (WellFormed.literal (s := s.toList) ?_).of_item
    have := literal?_literalText s.toList []
    rwa [List.append_nil] at this
  | cls k => exact (WellFormed.cls (readStrictly_chars (e := .cls k) h)).of_item
  | rule n => exact (WellFormed.name (hnames n (List.mem_singleton_self n))).of_item
  | seq gap a b iha ihb =>
    obtain ⟨hl, ha, hb, -, hgap⟩ := h
    have hwa := iha ha fun n hn => hnames n (List.mem_append_left _ hn)
    have hwb := ihb hb fun n hn => hnames n (List.mem_append_right _ hn)
    refine (WellFormed.next hwa ?_ hwb ?_).of_row hl
    · cases gap <;> simp [seqMark]
    · intro hname _
      rcases hgap with rfl | hrule
      · exact List.cons_ne_nil _ _
      · rw [ha.not_isRuleName hrule] at hname
        cases hname
  | alt gap a b iha ihb =>
    obtain ⟨rfl, ha, hb⟩ := h
    have hwa := iha ha fun n hn => hnames n (List.mem_append_left _ hn)
    have hwb := ihb hb fun n hn => hnames n (List.mem_append_right _ hn)
    have hmark : ∃ g k, altMark gap a = g ++ '|' :: k ∧ (∀ c ∈ g, c = ' ') ∧ ∀ c ∈ k, c = ' ' := by
      unfold altMark
      split
      · exact ⟨[], [' '], rfl, by simp, by simp⟩
      · exact ⟨[' '], [' '], rfl, by simp, by simp⟩
      · exact ⟨[], [], rfl, by simp, by simp⟩
    obtain ⟨g, k, hmark, hg, hk⟩ := hmark
    rw [chars, hmark]
    exact hwa.bar hg hk hwb
  | group e ih => exact (ih h hnames).group.of_item
  | repeated e times ih => exact ((ih h.1 hnames).times h.2).of_item
  | raw s => exact h.elim

end Expr

/-! ### Grammars -/

variable {settings : GrammarSettings} {shape : Shape} {table : RuleTable}

/-- The rules of a grammar are named properly. -/
theorem isRuleName_of_mem_names (h : (shape.grammar settings).1 = .ok table) {n : String} (hn : n ∈ table.names) :
    isRuleName n.toList = true := by
  obtain ⟨e, t, hc, rfl⟩ := exists_compiles_of_grammar h
  rcases mem_names_finishTable hn with hn | rfl | rfl
  · rcases hc.adds hn with hn | ⟨pos, hadds⟩
    · have hseed : ["char", "space", "think-safe-lt", "think-char", "think-content"].all (isRuleName ·.toList) = true := by decide
      exact List.all_eq_true.mp hseed n (mem_names_seedTable hn)
    · exact isRuleName_of_lengthens (by decide) hadds.lengthens
  · decide
  · decide

theorem closed_of_grammar (h : (shape.grammar settings).1 = .ok table) : table.Closed := by
  obtain ⟨e, t, hc, rfl⟩ := exists_compiles_of_grammar h
  exact (ordered_finishTable hc).1.closed

/-- The lines of a grammar without raw formats are its rules, each to be cut where its name ends. The names are those of
the notation, and so are the bodies. -/
theorem grammar_text_form (h : (shape.grammar settings).1 = .ok table) (hraws : shape.every Shape.hasNoRawFormat = true) :
    (Text.pieces '\n' table.render).map cutRule? = table.rules.map (fun r => some (r.1, r.2.render)) ∧
    ∀ r ∈ table.rules, isRuleName r.1.toList = true ∧ WellFormed .choice r.2.render.toList := by
  obtain ⟨hne, hproper⟩ := proper_of_grammar h hraws
  have hclosed := closed_of_grammar h
  constructor
  · rw [RuleTable.pieces_render hne hproper, List.map_map]
    exact List.map_congr_left fun r hr => cutRule?_ruleText (hproper r hr).1
  · intro r hr
    refine ⟨isRuleName_of_mem_names h (List.mem_map_of_mem hr), ?_⟩
    rw [Expr.render, String.toList_ofList]
    exact (hproper r hr).2.wellFormed fun n hn => isRuleName_of_mem_names h (hclosed r hr hn)

/-- Line breaks, quotes, backslashes, brackets and the mark itself in a name, a format, a delimiter and both markers. -/
theorem grammar_text_form_marks :
    (Shape.object "Sum" [⟨"a ::= b\n", .string { format := some "\n]\"#" }, none⟩]).every Shape.hasNoRawFormat = true ∧
    ∃ table, ((Shape.object "Sum" [⟨"a ::= b\n", .string { format := some "\n]\"#" }, none⟩]).grammar
        { delimiters := { opening := ']', closing := '\n' }, includeThinking := true, thinkingStart := "\"\\\n",
          thinkingEnd := { tail := ['^', '\n'] } }).1 = .ok table ∧
      (Text.pieces '\n' table.render).map cutRule? = table.rules.map (fun r => some (r.1, r.2.render)) ∧
      ∀ r ∈ table.rules, isRuleName r.1.toList = true ∧ WellFormed .choice r.2.render.toList := by
  have hraws : (Shape.object "Sum" [⟨"a ::= b\n", .string { format := some "\n]\"#" }, none⟩]).every
      Shape.hasNoRawFormat = true := by decide
  have hgrammar : ∃ table, ((Shape.object "Sum" [⟨"a ::= b\n", .string { format := some "\n]\"#" }, none⟩]).grammar
      { delimiters := { opening := ']', closing := '\n' }, includeThinking := true, thinkingStart := "\"\\\n",
        thinkingEnd := { tail := ['^', '\n'] } }).1 = .ok table := ⟨_, rfl⟩
  obtain ⟨table, h⟩ := hgrammar
  exact ⟨hraws, table, h, grammar_text_form h hraws⟩

end RecordGrammar
