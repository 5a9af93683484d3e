import RecordGrammar.Proofs.Grammar.FirstRules

/-!
# Where the thinking block ends

No end marker begins within a text of `think-content`, whatever follows that text (`texts_thinkContent`). The marker's only `<`
is its first character, so a marker could begin at a `<` only; and a unit that starts with `<` follows the marker for a
while and then leaves it, before the unit ends. So what follows the unit does not matter, and units can be put in a row.
-/

namespace RecordGrammar
open RecordGrammar.Expr Reading

namespace Text
variable {m s a b : List Char} {n n' : Nat}

/-- The first occurrence of a text in another one starts at that place. -/
structure FirstAt (m s : List Char) (n : Nat) : Prop where
  here : m <+: s.drop n
  before : ∀ k < n, ¬ m <+: s.drop k

theorem FirstAt.unique (h : FirstAt m s n) (h' : FirstAt m s n') : n = n' := by
  rcases Nat.lt_trichotomy n n' with hlt | heq | hlt
  · exact absurd h.here (h'.before n hlt)
  · exact heq
  · exact absurd h'.here (h.before n' hlt)

/-- Whatever follows the text, no `m` begins within it. -/
def BeginsNo (m s : List Char) : Prop := ∀ k < s.length, ∀ rest, ¬ m <+: s.drop k ++ rest

namespace BeginsNo

theorem nil : BeginsNo m [] := fun k hk => absurd hk (Nat.not_lt_zero k)

theorem append (ha : BeginsNo m a) (hb : BeginsNo m b) : BeginsNo m (a ++ b) := by
  intro k hk rest
  rcases Nat.lt_or_ge k a.length with h | h
  · rw [List.drop_append_of_le_length h.le, List.append_assoc]
    exact ha k h _
  · obtain ⟨j, rfl⟩ := Nat.exists_eq_add_of_le h
    rw [List.length_append] at hk
    rw [List.drop_length_add_append]
    exact hb j (by omega) rest

theorem firstAt (h : BeginsNo m s) (rest : List Char) : FirstAt m (s ++ m ++ rest) s.length := by
  refine ⟨?_, fun k hk => ?_⟩
  · rw [List.append_assoc, List.drop_left]
    exact List.prefix_append m rest
  · rw [List.append_assoc, List.drop_append_of_le_length hk.le]
    exact h k hk _

theorem not_occurs (h : BeginsNo m s) (hm : m ≠ []) : ¬ m <:+: s := by
  rintro ⟨before, after, rfl⟩
  refine h before.length ?_ [] ?_
  · have := List.length_pos_of_ne_nil hm
    simp only [List.length_append]
    omega
  · rw [List.append_nil, List.append_assoc, List.drop_left]
    exact List.prefix_append m after

end BeginsNo

end Text

open Text

/-- A unit of the thinking block never begins an end marker. -/
abbrev withoutMarker (m : EndMarker) : Subsemiring (Language Char) :=
  within (BeginsNo ('<' :: m.tail)) .nil fun _ _ => .append

variable {body : String → Option Expr} {m : EndMarker} {w : List Char}

theorem beginsNo_of_ne {c : Char} (h : c ≠ '<') : BeginsNo ('<' :: m.tail) [c] := by
  intro k hk rest hprefix
  obtain rfl : k = 0 := by simpa using hk
  exact h (List.cons_prefix_cons.mp hprefix).1.symm

/-! ### Leaving the marker -/

/-- The text follows a tail for a while, and then another character comes than the next one, which is no `<` either. -/
def Leaves (tail w : List Char) : Prop :=
  ∃ before next after c, tail = before ++ next :: after ∧ w = before ++ [c] ∧ c ≠ next ∧ c ≠ '<'

theorem Leaves.cons {tail : List Char} (h : Leaves tail w) (c : Char) : Leaves (c :: tail) (c :: w) := by
  obtain ⟨before, next, after, d, rfl, rfl, hnext, hlt⟩ := h
  exact ⟨c :: before, next, after, d, rfl, rfl, hnext, hlt⟩

theorem admits_noneOf {cs : List Char} {c : Char} : (CharClass.noneOf cs).admits c = true ↔ c ∉ cs := by
  have h : (CharClass.noneOf cs).admits c = true ↔ ∀ x ∈ cs, ¬ c = x := by
    simp [CharClass.noneOf, CharClass.admits, ClassItem.covers]
  exact h.trans ⟨fun h hc => h c hc rfl, fun h x hx he => h (he ▸ hx)⟩

theorem Leaves.not_nil : ¬ Leaves [] w := fun ⟨before, _, _, _, htail, _⟩ => by
  cases before <;> cases htail

/-- A tail is left at its first character or behind it. -/
theorem leaves_cons {c : Char} {tail : List Char} :
    Leaves (c :: tail) w ↔ (∃ d, d ∉ [c, '<'] ∧ w = [d]) ∨ ∃ v, Leaves tail v ∧ w = c :: v := by
  refine ⟨?_, ?_⟩
  · rintro ⟨before, next, after, d, htail, rfl, hnext, hlt⟩
    cases before with
    | nil =>
      cases htail
      exact .inl ⟨d, by simp [hnext, hlt], rfl⟩
    | cons b before =>
      cases htail
      exact .inr ⟨_, ⟨before, next, after, d, rfl, rfl, hnext, hlt⟩, rfl⟩
  · rintro (⟨d, hd, rfl⟩ | ⟨v, hv, rfl⟩)
    · rw [List.mem_cons, List.mem_singleton, not_or] at hd
      exact ⟨[], c, tail, d, rfl, rfl, hd.1, hd.2⟩
    · exact hv.cons c

theorem mem_leaveMarker {c : Char} : w ∈ (leaveMarker c).texts body ↔ ∃ d, d ∉ [c, '<'] ∧ w = [d] := by
  simp only [leaveMarker, texts_cls, mem_oneChar, admits_noneOf]

theorem mem_divergeFrom {tail : List Char} (hne : tail ≠ []) : w ∈ (divergeFrom tail).texts body ↔ Leaves tail w := by
  fun_induction divergeFrom tail generalizing w with
  | case1 => exact absurd rfl hne
  | case2 c =>
    rw [leaves_cons, mem_leaveMarker]
    refine (or_iff_left ?_).symm
    rintro ⟨v, hv, -⟩
    exact hv.not_nil
  | case3 c tail htail ih =>
    rw [texts_group, texts_oneOf _ (List.cons_ne_nil _ _), List.map_cons, List.map_singleton, List.sum_cons,
      List.sum_singleton, texts_row, List.map_cons, List.map_singleton, List.prod_cons, List.prod_singleton,
      Language.mem_add, mem_leaveMarker, leaves_cons, texts_literal, mem_just_mul, String.toList_singleton]
    exact or_congr_right (exists_congr fun _ => and_congr_left fun _ => ih htail)

theorem Leaves.not_tail {tail s : List Char} (h : Leaves tail w) (hw : w <+: s) : ¬ tail <+: s := by
  obtain ⟨before, next, after, c, rfl, rfl, hnext, -⟩ := h
  obtain ⟨rest, rfl⟩ := hw
  intro htail
  rw [List.append_assoc, List.prefix_append_right_inj] at htail
  exact hnext (List.cons_prefix_cons.mp htail).1.symm

theorem Leaves.lt_not_mem {tail : List Char} (h : Leaves tail w) (htail : '<' ∉ tail) : '<' ∉ w := by
  obtain ⟨before, next, after, c, rfl, rfl, -, hlt⟩ := h
  intro hw
  rcases List.mem_append.mp hw with hw | hw
  · exact htail (List.mem_append_left _ hw)
  · exact hlt (List.mem_singleton.mp hw).symm

/-- A `<` behind which the marker is left begins no marker, and neither does any character behind it. -/
theorem beginsNo_of_leaves (h : Leaves m.tail w) : BeginsNo ('<' :: m.tail) ('<' :: w) := by
  intro k hk rest hprefix
  cases k with
  | zero => exact h.not_tail (List.prefix_append w rest) (List.cons_prefix_cons.mp hprefix).2
  | succ k =>
    -- the marker's only `<` would have to be one of the characters behind the first one
    refine h.lt_not_mem m.lt_not_mem ?_
    have hk := Nat.lt_of_succ_lt_succ hk
    rw [List.drop_succ_cons, List.drop_eq_getElem_cons hk] at hprefix
    exact (List.cons_prefix_cons.mp hprefix).1 ▸ List.getElem_mem hk

/-! ### The rules of the block -/

section
variable {settings : GrammarSettings} (hinclude : settings.includeThinking = true)
include hinclude

theorem body?_thinkSafeLt : (seedTable settings).body? "think-safe-lt" = some (safeLtExpr settings.thinkingEnd) := by
  simp [RuleTable.body?, seedTable, hinclude, thinkingRules, List.lookup_cons]

theorem body?_thinkChar : (seedTable settings).body? "think-char" =
    some (oneOf .spaced [cls (.noneOf ['<']), rule "think-safe-lt"]) := by
  simp [RuleTable.body?, seedTable, hinclude, thinkingRules, List.lookup_cons]

theorem body?_thinkContent : (seedTable settings).body? "think-content" =
    some (repeated (rule "think-char") (.between 0 (settings.maxThinkingLength : Int))) := by
  simp [RuleTable.body?, seedTable, hinclude, thinkingRules, List.lookup_cons]

/-- A unit is a character other than `<`, or a `<` behind which the marker is left. -/
theorem mem_thinkChar : w ∈ (rule "think-char").texts (seedTable settings).body? ↔
    (∃ c, c ≠ '<' ∧ w = [c]) ∨ ∃ v, Leaves settings.thinkingEnd.tail v ∧ w = '<' :: v := by
  rw [texts_rule (body?_thinkChar hinclude), texts_oneOf _ (List.cons_ne_nil _ _), List.map_cons, List.map_singleton,
    List.sum_cons, List.sum_singleton, Language.mem_add, texts_cls, mem_oneChar, texts_rule (body?_thinkSafeLt hinclude),
    safeLtExpr, texts_row, List.map_cons, List.map_singleton, List.prod_cons, List.prod_singleton, texts_word, mem_just_mul]
  refine or_congr ?_ (exists_congr fun v => and_congr_left fun _ => mem_divergeFrom settings.thinkingEnd.tail_ne_nil)
  simp only [admits_noneOf, List.mem_singleton]

theorem texts_thinkChar :
    (rule "think-char").texts (seedTable settings).body? ∈ withoutMarker settings.thinkingEnd := fun w hw => by
  rcases (mem_thinkChar hinclude).mp hw with ⟨c, hc, rfl⟩ | ⟨v, hv, rfl⟩
  · exact beginsNo_of_ne hc
  · exact beginsNo_of_leaves hv

theorem texts_thinkContent :
    (rule "think-content").texts (seedTable settings).body? ∈ withoutMarker settings.thinkingEnd := by
  rw [texts_rule (body?_thinkContent hinclude), texts_between]
  exact runs_mem_within (texts_thinkChar hinclude)

end

/-! ### The block in a grammar -/

/-- A thinking block ends at the first end marker: none begins within the block, so the text before it is the only one that
the rest of the text leaves for `think-content`. -/
theorem thinkingBlock_closes {settings : GrammarSettings} {shape : Shape} {table read : RuleTable} {c : List Char}
    (hinclude : settings.includeThinking = true) (hgrammar : (shape.grammar settings).1 = .ok table)
    (hread : read = table ∨ readRules table.render = some read) (hc : Derives read.body? (rule "think-content") c) :
    (∀ r, FirstAt settings.thinkingEnd.text.toList (c ++ settings.thinkingEnd.text.toList ++ r) c.length) ∧
    ¬ settings.thinkingEnd.text.toList <:+: c ∧
    ∀ c' r r', Derives read.body? (rule "think-content") c' →
      settings.thinkingStart.toList ++ c ++ settings.thinkingEnd.text.toList ++ r =
        settings.thinkingStart.toList ++ c' ++ settings.thinkingEnd.text.toList ++ r' → c = c' := by
  have hmarker : settings.thinkingEnd.text.toList = '<' :: settings.thinkingEnd.tail := String.toList_ofList
  have hname : "think-content" ∈ (seedTable settings).names := by
    rw [names_seedTable, if_pos hinclude]
    decide
  have hbegins : ∀ d, Derives read.body? (rule "think-content") d → BeginsNo ('<' :: settings.thinkingEnd.tail) d :=
    fun d hd => texts_thinkContent hinclude d (derives_seedTable hgrammar hread hname hd)
  rw [hmarker]
  refine ⟨(hbegins c hc).firstAt, (hbegins c hc).not_occurs (List.cons_ne_nil _ _), fun c' r r' hc' heq => ?_⟩
  have hrest : c ++ '<' :: settings.thinkingEnd.tail ++ r = c' ++ '<' :: settings.thinkingEnd.tail ++ r' := by
    simpa only [List.append_assoc, List.append_cancel_left_eq] using heq
  have hfirst := (hbegins c hc).firstAt r
  rw [hrest] at hfirst
  have hlength : c.length = c'.length := hfirst.unique ((hbegins c' hc').firstAt r')
  rw [List.append_assoc, List.append_assoc] at hrest
  exact (List.append_inj hrest hlength).1

/-- A marker whose characters repeat, and a text that goes along it nearly to its end, twice. -/
theorem thinkingBlock_closes_repeating :
    ∃ (settings : GrammarSettings) (table : RuleTable), settings.includeThinking = true ∧
      settings.thinkingEnd.text = "<aab" ∧ ((Shape.scalar .boolean "flag").grammar settings).1 = .ok table ∧
      Derives table.body? (rule "think-content") "<aac<aac".toList ∧
      ∀ r, FirstAt "<aab".toList ("<aac<aac".toList ++ "<aab".toList ++ r) 8 := by
  let settings : GrammarSettings := { includeThinking := true, thinkingEnd := { tail := ['a', 'a', 'b'] } }
  let table : RuleTable := finishTable settings booleanExpr (seedTable settings)
  have hgrammar : ((Shape.scalar .boolean "flag").grammar settings).1 = .ok table := by
    rfl
  have hunit : Derives table.body? (rule "think-char") "<aac".toList := by
    have hleave : Derives table.body? (leaveMarker 'b') ['c'] := .cls (by decide)
    have hthird : Derives table.body? (divergeFrom ['a', 'b']) ("a".toList ++ ['c']) :=
      .group (.altRest (.seq (.literal "a") hleave))
    have hsecond : Derives table.body? (divergeFrom ['a', 'a', 'b']) ("a".toList ++ ("a".toList ++ ['c'])) :=
      .group (.altRest (.seq (.literal "a") hthird))
    have hsafe : Derives table.body? (safeLtExpr settings.thinkingEnd)
        ("<".toList ++ ("a".toList ++ ("a".toList ++ ['c']))) := .seq (.literal "<") hsecond
    exact .rule (e := oneOf .spaced [cls (.noneOf ['<']), rule "think-safe-lt"]) rfl (.altRest (.rule rfl hsafe))
  have hcontent : Derives table.body? (rule "think-content") "<aac<aac".toList := by
    have hunits : Derives table.body? (repeated (rule "think-char") (.between 0 1024))
        ["<aac".toList, "<aac".toList].flatten := .repeated ⟨by decide, by decide⟩ (by simpa using hunit)
    exact .rule rfl hunits
  exact ⟨settings, table, rfl, rfl, hgrammar, hcontent, (thinkingBlock_closes rfl hgrammar (.inl rfl) hcontent).1⟩

end RecordGrammar
