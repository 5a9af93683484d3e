import RecordGrammar.Proofs.Grammar.ThinkingBlock

/-!
# Which texts a thinking block holds

A text is units in a row just if the marker is left behind each `<` of it (`LeavesEach`): a unit ends where the marker is
left, and the next one begins there. `thinkContent_admits_iff` says the same of the text as a whole: it holds no marker, it
does not end within one, and no `<` comes right behind the beginning of one. A character that leaves the marker is no `<`,
so a `<` that breaks off a marker would be in no unit.
-/

namespace RecordGrammar
open RecordGrammar.Expr Reading

variable {m : EndMarker} {tail s a b w p q : List Char} {c : Char}

/-! ### Behind a `<` -/

theorem Leaves.not_along (h : Leaves tail w) : ¬ w <+: tail := by
  obtain ⟨before, next, after, c, rfl, rfl, hnext, -⟩ := h
  intro hw
  have hc := (List.prefix_append_right_inj before).mp hw
  exact hnext (List.cons_prefix_cons.mp hc).1

theorem Leaves.not_again (h : Leaves tail w) (htail : '<' ∉ tail) (hw : w <+: s) (hq : q <+: tail) :
    ¬ q ++ ['<'] <+: s := by
  intro hagain
  have hlt := h.lt_not_mem htail
  rcases List.prefix_or_prefix_of_prefix hw hagain with hw | hw
  · rcases List.prefix_concat_iff.mp hw with rfl | hw
    · exact hlt (List.mem_append_right q (List.mem_singleton_self '<'))
    · exact h.not_along (hw.trans hq)
  · exact hlt (hw.subset (List.mem_append_right q (List.mem_singleton_self '<')))

/-- A text goes along the tail to its end, or ends before, or leaves it with a `<` or with another character. -/
theorem leaves_or : ∀ tail s : List Char, tail <+: s ∨
    (∃ q, q <+: tail ∧ q ≠ tail ∧ (s = q ∨ q ++ ['<'] <+: s)) ∨ ∃ w, w <+: s ∧ Leaves tail w
  | [], s => .inl List.nil_prefix
  | c :: tail, [] => .inr (.inl ⟨[], List.nil_prefix, (List.cons_ne_nil c tail).symm, .inl rfl⟩)
  | c :: tail, d :: s => by
    by_cases hd : d = c
    · subst hd
      rcases leaves_or tail s with h | ⟨q, hq, hne, h⟩ | ⟨w, hw, h⟩
      · exact .inl (List.cons_prefix_cons.mpr ⟨rfl, h⟩)
      · refine .inr (.inl ⟨d :: q, List.cons_prefix_cons.mpr ⟨rfl, hq⟩, fun he => hne (List.cons.inj he).2, ?_⟩)
        exact h.imp (congrArg (d :: ·)) fun h => List.cons_prefix_cons.mpr ⟨rfl, h⟩
      · exact .inr (.inr ⟨d :: w, List.cons_prefix_cons.mpr ⟨rfl, hw⟩, h.cons d⟩)
    · by_cases hlt : d = '<'
      · subst hlt
        exact .inr (.inl ⟨[], List.nil_prefix, (List.cons_ne_nil c tail).symm, .inr ⟨s, rfl⟩⟩)
      · exact .inr (.inr ⟨[d], ⟨s, rfl⟩, leaves_cons.mpr (.inl ⟨d, by simp [hd, hlt], rfl⟩)⟩)

/-! ### Behind each `<` -/

/-- The marker is left behind each `<` of the text, before the text ends. -/
def LeavesEach (tail s : List Char) : Prop := ∀ rest, '<' :: rest <:+ s → ∃ w, w <+: rest ∧ Leaves tail w

theorem leavesEach_of_not_mem (h : '<' ∉ s) : LeavesEach tail s := fun _ hs => absurd (hs.subset List.mem_cons_self) h

theorem leavesEach_cons :
    LeavesEach tail (c :: s) ↔ (c = '<' → ∃ w, w <+: s ∧ Leaves tail w) ∧ LeavesEach tail s := by
  refine ⟨fun h => ⟨?_, fun rest hs => h rest (hs.trans (List.suffix_cons c s))⟩, fun ⟨hc, hs⟩ rest hrest => ?_⟩
  · rintro rfl
    exact h s List.suffix_rfl
  · rcases List.suffix_cons_iff.mp hrest with he | hrest
    · cases he
      exact hc rfl
    · exact hs rest hrest

theorem LeavesEach.append (ha : LeavesEach tail a) (hb : LeavesEach tail b) : LeavesEach tail (a ++ b) := by
  induction a with
  | nil => exact hb
  | cons c a ih =>
    obtain ⟨hc, ha⟩ := leavesEach_cons.mp ha
    refine leavesEach_cons.mpr ⟨fun he => ?_, ih ha⟩
    obtain ⟨w, hw, h⟩ := hc he
    exact ⟨w, hw.trans (List.prefix_append a b), h⟩

/-! ### Beginnings of the marker -/

/-- The marker begins with the text, and is longer. -/
structure EndMarker.BeginsWith (m : EndMarker) (p : List Char) : Prop where
  ne_nil : p ≠ []
  here : p <+: m.text.toList
  ne : p ≠ m.text.toList

theorem EndMarker.toList_text (m : EndMarker) : m.text.toList = '<' :: m.tail := String.toList_ofList

theorem EndMarker.beginsWith_iff : m.BeginsWith p ↔ ∃ q, p = '<' :: q ∧ q <+: m.tail ∧ q ≠ m.tail := by
  refine ⟨fun ⟨hnil, hp, hne⟩ => ?_, ?_⟩
  · rw [toList_text] at hp hne
    rcases List.prefix_cons_iff.mp hp with hp | ⟨q, rfl, hq⟩
    · exact absurd hp hnil
    · exact ⟨q, rfl, hq, fun he => hne (he ▸ rfl)⟩
  · rintro ⟨q, rfl, hq, hne⟩
    refine ⟨List.cons_ne_nil _ _, ?_, ?_⟩ <;> rw [toList_text]
    · exact List.cons_prefix_cons.mpr ⟨rfl, hq⟩
    · exact fun he => hne (List.cons.inj he).2

theorem cons_infix_iff : c :: w <:+: s ↔ ∃ rest, c :: rest <:+ s ∧ w <+: rest := by
  rw [List.infix_iff_prefix_suffix]
  refine ⟨fun ⟨t, ht, hs⟩ => ?_, fun ⟨rest, hs, hw⟩ => ⟨c :: rest, List.cons_prefix_cons.mpr ⟨rfl, hw⟩, hs⟩⟩
  obtain ⟨rest, rfl⟩ := ht
  exact ⟨w ++ rest, hs, List.prefix_append w rest⟩

/-- The text holds no marker, does not end within one, and has no `<` right behind the beginning of one. -/
structure EndMarker.Spares (m : EndMarker) (s : List Char) : Prop where
  holds : ¬ m.text.toList <:+: s
  ends : ∀ p, m.BeginsWith p → ¬ p <:+ s
  again : ∀ p, m.BeginsWith p → ¬ p ++ ['<'] <:+: s

theorem leavesEach_iff : LeavesEach m.tail s ↔ m.Spares s := by
  refine ⟨fun h => ⟨?_, ?_, ?_⟩, fun h rest hrest => ?_⟩
  · rw [m.toList_text, cons_infix_iff]
    rintro ⟨rest, hrest, htail⟩
    obtain ⟨w, hw, hleaves⟩ := h rest hrest
    exact hleaves.not_tail hw htail
  · intro p hp hrest
    obtain ⟨q, rfl, hq, -⟩ := EndMarker.beginsWith_iff.mp hp
    obtain ⟨w, hw, hleaves⟩ := h q hrest
    exact hleaves.not_along (hw.trans hq)
  · intro p hp hagain
    obtain ⟨q, rfl, hq, -⟩ := EndMarker.beginsWith_iff.mp hp
    rw [List.cons_append, cons_infix_iff] at hagain
    obtain ⟨rest, hrest, hagain⟩ := hagain
    obtain ⟨w, hw, hleaves⟩ := h rest hrest
    exact hleaves.not_again m.lt_not_mem hw hq hagain
  · rcases leaves_or m.tail rest with htail | ⟨q, hq, hne, hq'⟩ | hleaves
    · refine absurd ?_ h.holds
      rw [m.toList_text, cons_infix_iff]
      exact ⟨rest, hrest, htail⟩
    · have hp : m.BeginsWith ('<' :: q) := EndMarker.beginsWith_iff.mpr ⟨q, rfl, hq, hne⟩
      rcases hq' with rfl | hagain
      · exact absurd hrest (h.ends _ hp)
      · exact absurd (cons_infix_iff.mpr ⟨rest, hrest, hagain⟩) (h.again _ hp)
    · exact hleaves

/-! ### Units in a row -/

section
variable {settings : GrammarSettings} (hinclude : settings.includeThinking = true)
include hinclude

theorem thinkContent_mem_names : "think-content" ∈ (seedTable settings).names := by
  rw [names_seedTable, if_pos hinclude]
  decide

theorem leavesEach_of_mem_thinkChar (h : w ∈ (rule "think-char").texts (seedTable settings).body?) :
    LeavesEach settings.thinkingEnd.tail w := by
  rcases (mem_thinkChar hinclude).mp h with ⟨c, hc, rfl⟩ | ⟨v, hv, rfl⟩
  · exact leavesEach_of_not_mem fun h => hc (List.mem_singleton.mp h).symm
  · exact leavesEach_cons.mpr ⟨fun _ => ⟨v, List.prefix_rfl, hv⟩,
      leavesEach_of_not_mem (hv.lt_not_mem settings.thinkingEnd.lt_not_mem)⟩

/-- A unit begins such a text, and what is behind it is such a text. -/
theorem exists_unit_of_leavesEach (h : LeavesEach settings.thinkingEnd.tail (c :: s)) :
    ∃ v rest, s = v ++ rest ∧ c :: v ∈ (rule "think-char").texts (seedTable settings).body? ∧
      LeavesEach settings.thinkingEnd.tail rest := by
  obtain ⟨hc, hs⟩ := leavesEach_cons.mp h
  by_cases hlt : c = '<'
  · subst hlt
    obtain ⟨v, ⟨rest, rfl⟩, hv⟩ := hc rfl
    exact ⟨v, rest, rfl, (mem_thinkChar hinclude).mpr (.inr ⟨v, hv, rfl⟩),
      fun r hr => hs r (hr.trans (List.suffix_append v rest))⟩
  · exact ⟨[], s, rfl, (mem_thinkChar hinclude).mpr (.inl ⟨c, hlt, rfl⟩), hs⟩

/-- Units in a row, and no more of them than characters. -/
theorem exists_units_of_leavesEach : ∀ s : List Char, LeavesEach settings.thinkingEnd.tail s →
    ∃ n ≤ s.length, s ∈ (rule "think-char").texts (seedTable settings).body? ^ n
  | [], _ => ⟨0, Nat.le_refl 0, by rw [pow_zero]; exact Language.nil_mem_one⟩
  | c :: s, h => by
    obtain ⟨v, rest, hs, hunit, hrest⟩ := exists_unit_of_leavesEach hinclude h
    have hlength : s.length = v.length + rest.length := by rw [hs, List.length_append]
    obtain ⟨n, hn, hrest⟩ := exists_units_of_leavesEach rest hrest
    refine ⟨n + 1, ?_, ?_⟩
    · rw [List.length_cons]
      omega
    · rw [pow_succ', hs]
      exact Language.append_mem_mul hunit hrest
termination_by s => s.length
decreasing_by
  rw [List.length_cons]
  omega

theorem leavesEach_of_mem_units {n : Nat} (h : s ∈ (rule "think-char").texts (seedTable settings).body? ^ n) :
    LeavesEach settings.thinkingEnd.tail s := by
  have hunit : (rule "think-char").texts (seedTable settings).body? ∈
      within (LeavesEach settings.thinkingEnd.tail) (leavesEach_of_not_mem List.not_mem_nil) fun _ _ => .append :=
    fun w hw => leavesEach_of_mem_thinkChar hinclude hw
  exact pow_mem hunit n s h

theorem spares_of_mem_thinkContent (h : s ∈ (rule "think-content").texts (seedTable settings).body?) :
    settings.thinkingEnd.Spares s := by
  rw [texts_rule (body?_thinkContent hinclude), texts_between] at h
  obtain ⟨n, -, -, h⟩ := h
  exact leavesEach_iff.mp (leavesEach_of_mem_units hinclude h)

theorem mem_thinkContent_of_spares (h : settings.thinkingEnd.Spares s) (hlength : s.length ≤ settings.maxThinkingLength) :
    s ∈ (rule "think-content").texts (seedTable settings).body? := by
  rw [texts_rule (body?_thinkContent hinclude), texts_between]
  obtain ⟨n, hn, h⟩ := exists_units_of_leavesEach hinclude s (leavesEach_iff.mpr h)
  exact ⟨n, Nat.zero_le n, hn.trans hlength, h⟩

end

/-! ### The text in a grammar -/

/-- In every grammar whose thinking blocks end at this marker and may be that long, the text may stand in a block. -/
def EndMarker.Allows (m : EndMarker) (length : Nat) (s : List Char) : Prop :=
  ∀ (settings : GrammarSettings) (shape : Shape) (table read : RuleTable), settings.includeThinking = true →
    settings.thinkingEnd = m → length ≤ settings.maxThinkingLength → (shape.grammar settings).1 = .ok table →
    read = table ∨ readRules table.render = some read → Derives read.body? (rule "think-content") s

theorem EndMarker.spares_of_allows {length : Nat} (h : m.Allows length s) : m.Spares s := by
  let settings : GrammarSettings := { includeThinking := true, maxThinkingLength := length, thinkingEnd := m }
  have hgrammar : ((Shape.scalar .boolean "flag").grammar settings).1 =
      .ok (finishTable settings booleanExpr (seedTable settings)) := by
    rfl
  have hs := h settings _ _ _ rfl rfl (Nat.le_refl length) hgrammar (.inl rfl)
  exact spares_of_mem_thinkContent rfl ((derives_firstRule_iff hgrammar (.inl rfl) (thinkContent_mem_names rfl)).mp hs)

/-- There is a length from which on the text may stand in the thinking blocks, just if it holds no end marker, does not end
within one and has no `<` right behind the beginning of one. -/
theorem thinkContent_admits_iff (m : EndMarker) (s : List Char) : (∃ length, m.Allows length s) ↔ m.Spares s := by
  refine ⟨fun ⟨_, h⟩ => EndMarker.spares_of_allows h, fun h => ⟨s.length, ?_⟩⟩
  rintro settings shape table read hinclude rfl hlength hgrammar hread
  refine (derives_firstRule_iff hgrammar hread (thinkContent_mem_names hinclude)).mpr ?_
  exact mem_thinkContent_of_spares hinclude h hlength

/-- A text that holds no marker and does not end within one, but begins one twice, stands in no thinking block. -/
theorem thinkContent_refuses_repeated_lt : ∃ (m : EndMarker) (s : List Char), m.text = "<|" ∧ s = "<<a".toList ∧
    ¬ m.text.toList <:+: s ∧ (∀ p, m.BeginsWith p → ¬ p <:+ s) ∧ ¬ ∃ length, m.Allows length s := by
  let m : EndMarker := { tail := ['|'] }
  refine ⟨m, "<<a".toList, rfl, rfl, by decide, fun p hp hs => ?_, fun ⟨_, h⟩ => ?_⟩
  · obtain ⟨q, rfl, hq, hne⟩ := EndMarker.beginsWith_iff.mp hp
    rcases List.prefix_cons_iff.mp hq with rfl | ⟨r, rfl, hr⟩
    · exact absurd hs (by decide)
    · rw [List.prefix_nil.mp hr] at hne
      exact hne rfl
  · have hbegins : m.BeginsWith ['<'] := EndMarker.beginsWith_iff.mpr ⟨[], rfl, List.nil_prefix, by decide⟩
    exact (EndMarker.spares_of_allows h).again _ hbegins ⟨[], ['a'], rfl⟩

end RecordGrammar
