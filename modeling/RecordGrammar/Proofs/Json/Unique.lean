import RecordGrammar.Proofs.Json.Grammar

/-!
# A JSON text stands for one value

`Spells.unique`: of two values that a text begins with, both are spelled by the same front of it and are the same. The
first character tells the kind of a value; all kinds but numbers end by themselves, and a number ends in front of
a character that no number holds. `IsText.unique` follows for whole texts.
-/

namespace RecordGrammar.JsonText

/-- A text that does not begin with a character that has the property. -/
def Ends (p : Char → Bool) (r : List Char) : Prop := ∀ c ∈ r.head?, p c = false

namespace Ends
variable {p : Char → Bool} {c : Char} {g r : List Char}

theorem nil : Ends p [] := fun c hc => by cases hc

theorem cons (h : p c = false) : Ends p (c :: r) := fun d hd => by
  cases hd
  exact h

theorem append (hg : ∀ c ∈ g, p c = false) (hr : Ends p r) : Ends p (g ++ r) := by
  cases g with
  | nil => exact hr
  | cons c g => exact cons (hg c List.mem_cons_self)

theorem takeWhile (h : Ends p r) : r.takeWhile p = [] := by
  cases r with
  | nil => rfl
  | cons c r => rw [List.takeWhile_cons, h c rfl, if_neg Bool.false_ne_true]

end Ends

/-- A run of characters with the property ends where the property does. -/
theorem append_inj_of_ends {p : Char → Bool} {a b r q : List Char} (ha : ∀ c ∈ a, p c = true)
    (hb : ∀ c ∈ b, p c = true) (hr : Ends p r) (hq : Ends p q) (h : a ++ r = b ++ q) : a = b ∧ r = q := by
  have hab : a = b := by
    have := congrArg (List.takeWhile p) h
    rwa [List.takeWhile_append_of_pos ha, List.takeWhile_append_of_pos hb, hr.takeWhile, hq.takeWhile,
      List.append_nil, List.append_nil] at this
  exact ⟨hab, List.append_cancel_left (hab ▸ h)⟩

theorem IsGap.append_inj {g k r q : List Char} (hg : IsGap g) (hk : IsGap k) (hr : Ends Json.isGap r)
    (hq : Ends Json.isGap q) (h : g ++ r = k ++ q) : g = k ∧ r = q := append_inj_of_ends hg hk hr hq h

/-! ### Numbers -/

def isNumberChar (c : Char) : Bool := c.isDigit || c = '-' || c = '+' || c = '.' || c = 'e' || c = 'E'

theorem isNumberChar_of_isGap {c : Char} (h : Json.isGap c = true) : isNumberChar c = false := by
  simp only [Json.isGap, Bool.or_eq_true, decide_eq_true_eq] at h
  rcases h with ((rfl | rfl) | rfl) | rfl <;> rfl

theorem IsGap.ends {g r : List Char} (hg : IsGap g) (hr : Ends isNumberChar r) : Ends isNumberChar (g ++ r) :=
  Ends.append (fun c hc => isNumberChar_of_isGap (hg c hc)) hr

theorem numberTexts_mem_madeOf : numberTexts ∈ madeOf isNumberChar := by
  have hdigit : ∀ c : Char, c.isDigit = true → isNumberChar c = true := fun c hc => by simp [isNumberChar, hc]
  have hdigits : someRuns (digitOf 0 9) ∈ madeOf isNumberChar :=
    someRuns_mem_within (digitOf_mem_madeOf hdigit (by omega))
  have hsign : 1 + just "-" ∈ madeOf isNumberChar := add_mem (one_mem _) (just_mem_madeOf (by decide))
  have hwhole : just "0" + digitOf 1 9 * (1 + someRuns (digitOf 0 9)) ∈ madeOf isNumberChar :=
    add_mem (just_mem_madeOf (by decide)) (mul_mem (digitOf_mem_madeOf hdigit (by omega)) (add_mem (one_mem _) hdigits))
  have hfraction : 1 + just "." * someRuns (digitOf 0 9) ∈ madeOf isNumberChar :=
    add_mem (one_mem _) (mul_mem (just_mem_madeOf (by decide)) hdigits)
  refine mul_mem (mul_mem (mul_mem hsign hwhole) hfraction) (add_mem (one_mem _) (mul_mem (mul_mem ?_ ?_) hdigits))
  · exact oneChar_mem_madeOf (by rintro c (rfl | rfl) <;> rfl)
  · exact add_mem (one_mem _) (oneChar_mem_madeOf (by rintro c (rfl | rfl) <;> rfl))

/-! ### Strings -/

theorem Chars.unique {s s' r r' : List Char} {u u' : List Nat} (h : Chars s u) (h' : Chars s' u')
    (heq : s ++ '"' :: r = s' ++ '"' :: r') : s = s' ∧ u = u' := by
  induction h generalizing s' u' with
  | nil =>
    cases h' with
    | nil => exact ⟨rfl, rfl⟩
    | plain hc => exact absurd ((List.cons.inj heq).1 ▸ hc) (by decide)
    | escape | unit => exact absurd (List.cons.inj heq).1 (by decide)
  | plain hc _ ih =>
    cases h' with
    | nil => exact absurd ((List.cons.inj heq).1 ▸ hc) (by decide)
    | plain _ h' =>
      obtain ⟨rfl, htail⟩ := List.cons.inj heq
      obtain ⟨rfl, rfl⟩ := ih h' htail
      exact ⟨rfl, rfl⟩
    | escape | unit => exact absurd ((List.cons.inj heq).1 ▸ hc) (by decide)
  | escape hl _ ih =>
    cases h' with
    | nil => exact absurd (List.cons.inj heq).1 (by decide)
    | plain hc => exact absurd ((List.cons.inj heq).1 ▸ hc) (by decide)
    | escape hl' h' =>
      obtain ⟨rfl, htail⟩ := List.cons.inj (List.cons.inj heq).2
      obtain ⟨rfl, rfl⟩ := ih h' htail
      cases hl.symm.trans hl'
      exact ⟨rfl, rfl⟩
    | unit => exact absurd ((List.cons.inj (List.cons.inj heq).2).1 ▸ hl) nofun
  | unit hlen _ _ ih =>
    cases h' with
    | nil => exact absurd (List.cons.inj heq).1 (by decide)
    | plain hc => exact absurd ((List.cons.inj heq).1 ▸ hc) (by decide)
    | escape hl' => exact absurd ((List.cons.inj (List.cons.inj heq).2).1 ▸ hl') nofun
    | unit hlen' _ h' =>
      simp only [List.cons_append, List.cons.injEq, true_and, List.append_assoc] at heq
      obtain ⟨rfl, htail⟩ := List.append_inj heq (hlen.trans hlen'.symm)
      obtain ⟨rfl, rfl⟩ := ih h' htail
      exact ⟨rfl, rfl⟩

/-! ### Values -/

inductive Kind where
  | null
  | yes
  | no
  | number
  | string
  | array
  | object
deriving DecidableEq

/-- The kind that a first character stands for. -/
def Kind.ofStart (c : Char) : Kind :=
  if c = 'n' then .null
  else if c = 't' then .yes
  else if c = 'f' then .no
  else if c = '"' then .string
  else if c = '[' then .array
  else if c = '\x7b' then .object
  else .number

def Value.kind : Value → Kind
  | null => .null
  | bool true => .yes
  | bool false => .no
  | number _ => .number
  | string _ => .string
  | array _ => .array
  | object _ => .object

/-- A number starts with a sign or a digit. -/
theorem numberTexts_start {w : List Char} (h : w ∈ numberTexts) :
    ∃ c s, w = c :: s ∧ (c = '-' ∨ ∃ n ≤ 9, c = n.digitChar) := by
  obtain ⟨_, hfront, exponent, -, rfl⟩ := Language.mem_mul.mp h
  obtain ⟨_, hint, fraction, -, rfl⟩ := Language.mem_mul.mp hfront
  obtain ⟨sign, hsign, whole, hwhole, rfl⟩ := Language.mem_mul.mp hint
  rw [Language.mem_add, Language.mem_one, mem_just] at hsign
  rw [Language.mem_add, mem_just, Language.mem_mul] at hwhole
  rcases hsign with rfl | rfl
  · rcases hwhole with rfl | ⟨_, ⟨n, -, hn, rfl⟩, digits, -, rfl⟩
    · exact ⟨'0', _, rfl, .inr ⟨0, Nat.zero_le 9, rfl⟩⟩
    · exact ⟨n.digitChar, _, rfl, .inr ⟨n, hn, rfl⟩⟩
  · exact ⟨'-', _, rfl, .inl rfl⟩

/-- The first character of a value tells its kind. It is no white space and does not close an array. -/
theorem Spells.start {t : List Char} {v : Value} (h : Spells t v) :
    ∃ c s, t = c :: s ∧ Json.isGap c = false ∧ c ≠ ']' ∧ Kind.ofStart c = v.kind := by
  cases h with
  | number hw =>
    have hdigit : ∀ n ≤ 9, Json.isGap n.digitChar = false ∧ n.digitChar ≠ ']' ∧ Kind.ofStart n.digitChar = .number := by
      decide
    obtain ⟨c, s, rfl, rfl | ⟨n, hn, rfl⟩⟩ := numberTexts_start hw
    · exact ⟨'-', s, rfl, rfl, by decide, rfl⟩
    · exact ⟨_, s, rfl, hdigit n hn⟩
  | _ => exact ⟨_, _, rfl, rfl, by decide, rfl⟩

theorem Spells.kind_eq {t t' r r' : List Char} {v v' : Value} (h : Spells t v) (h' : Spells t' v')
    (heq : t ++ r = t' ++ r') : v.kind = v'.kind := by
  obtain ⟨c, s, rfl, -, -, hc⟩ := h.start
  obtain ⟨c', s', rfl, -, -, hc'⟩ := h'.start
  rw [← hc, ← hc', (List.cons.inj heq).1]

/-- What starts with a quote is a string, and ends with one. -/
theorem Spells.chars_of_quote {t : List Char} {v : Value} (h : Spells ('"' :: t) v) :
    ∃ s u, Chars s u ∧ t = s ++ ['"'] := by
  generalize hw : '"' :: t = w at h
  have hkind : v.kind = .string := by
    obtain ⟨c, s, rfl, -, -, hc⟩ := h.start
    cases hw
    exact hc.symm
  cases h with
  | string hs => exact ⟨_, _, hs, (List.cons.inj hw).2⟩
  | _ => cases hkind

theorem Spells.ends {t r : List Char} {v : Value} (h : Spells t v) : Ends Json.isGap (t ++ r) := by
  obtain ⟨c, s, rfl, hc, -⟩ := h.start
  exact Ends.cons hc

theorem Elements.ends {t r : List Char} {vs : List Value} (h : Elements t vs) : Ends Json.isGap (t ++ r) := by
  cases h with
  | last h _ | cons h _ _ _ => rw [List.append_assoc]; exact h.ends

theorem Elements.ne {t r q : List Char} {vs : List Value} (h : Elements t vs) : t ++ r ≠ ']' :: q := by
  cases h with
  | last h _ | cons h _ _ _ =>
    obtain ⟨c, s, rfl, -, hc, -⟩ := h.start
    exact fun heq => hc (List.cons.inj heq).1

theorem Member.start {t : List Char} {m : List Nat × Value} (h : Member t m) : ∃ s, t = '"' :: s := by
  cases h
  exact ⟨_, rfl⟩

theorem Members.start {t : List Char} {ms : List (List Nat × Value)} (h : Members t ms) : ∃ s, t = '"' :: s := by
  cases h with
  | last h _ | cons h _ _ _ =>
    obtain ⟨s, rfl⟩ := h.start
    exact ⟨_, rfl⟩

theorem Members.ends {t r : List Char} {ms : List (List Nat × Value)} (h : Members t ms) :
    Ends Json.isGap (t ++ r) := by
  obtain ⟨s, rfl⟩ := h.start
  exact Ends.cons rfl

theorem Members.ne {t r q : List Char} {ms : List (List Nat × Value)} (h : Members t ms) : t ++ r ≠ '\x7d' :: q := by
  obtain ⟨s, rfl⟩ := h.start
  exact fun heq => absurd (List.cons.inj heq).1 (by decide)

/-- White space up to a character of another kind is the same on both sides. -/
theorem IsGap.cons_inj {g k r q : List Char} {c d : Char} (hg : IsGap g) (hk : IsGap k) (hc : Json.isGap c = false)
    (hd : Json.isGap d = false) (h : g ++ c :: r = k ++ d :: q) : g = k ∧ c = d ∧ r = q := by
  obtain ⟨hgk, h⟩ := hg.append_inj hk (Ends.cons hc) (Ends.cons hd) h
  exact ⟨hgk, List.cons.inj h⟩

/-- Behind an opening character. -/
theorem append_of_cons_append {c : Char} {a t r b s q : List Char} (h : c :: (a ++ t) ++ r = c :: (b ++ s) ++ q) :
    a ++ (t ++ r) = b ++ (s ++ q) := by
  simpa using h

mutual

/-- Two values that a text begins with are spelled by the same front of it and are the same. -/
theorem Spells.unique : ∀ {t t' r r' : List Char} {v v' : Value}, Spells t v → Spells t' v' →
    Ends isNumberChar r → Ends isNumberChar r' → t ++ r = t' ++ r' → t = t' ∧ v = v'
  | _, _, _, _, _, _, h@.null, h', _, _, heq => by
    have hk := h.kind_eq h' heq
    cases h' with
    | null => exact ⟨rfl, rfl⟩
    | _ => cases hk
  | _, _, _, _, _, _, h@.yes, h', _, _, heq => by
    have hk := h.kind_eq h' heq
    cases h' with
    | yes => exact ⟨rfl, rfl⟩
    | _ => cases hk
  | _, _, _, _, _, _, h@.no, h', _, _, heq => by
    have hk := h.kind_eq h' heq
    cases h' with
    | no => exact ⟨rfl, rfl⟩
    | _ => cases hk
  | _, _, _, _, _, _, h@(.number hw), h', hr, hr', heq => by
    have hk := h.kind_eq h' heq
    cases h' with
    | number hw' =>
      -- a number is all the characters of numbers that there are
      obtain ⟨rfl, -⟩ := append_inj_of_ends (numberTexts_mem_madeOf _ hw) (numberTexts_mem_madeOf _ hw') hr hr' heq
      exact ⟨rfl, rfl⟩
    | _ => cases hk
  | _, _, _, _, _, _, h@(.string hs), h', _, _, heq => by
    have hk := h.kind_eq h' heq
    cases h' with
    | string hs' =>
      obtain ⟨rfl, rfl⟩ := hs.unique hs' (append_of_cons_append heq)
      exact ⟨rfl, rfl⟩
    | _ => cases hk
  | _, _, _, _, _, _, h@(.emptyArray hg), h', _, _, heq => by
    have hk := h.kind_eq h' heq
    cases h' with
    | emptyArray hg' =>
      obtain ⟨rfl, -⟩ := hg.cons_inj hg' rfl rfl (append_of_cons_append heq)
      exact ⟨rfl, rfl⟩
    | array hg' he' =>
      -- an element would have to start with the closing bracket
      exact absurd (hg.append_inj hg' (Ends.cons rfl) he'.ends (append_of_cons_append heq)).2.symm he'.ne
    | _ => cases hk
  | _, _, _, _, _, _, h@(.array hg he), h', _, _, heq => by
    have hk := h.kind_eq h' heq
    cases h' with
    | emptyArray hg' => exact absurd (hg.append_inj hg' he.ends (Ends.cons rfl) (append_of_cons_append heq)).2 he.ne
    | array hg' he' =>
      obtain ⟨rfl, hes⟩ := hg.append_inj hg' he.ends he'.ends (append_of_cons_append heq)
      obtain ⟨rfl, rfl⟩ := he.unique he' hes
      exact ⟨rfl, rfl⟩
    | _ => cases hk
  | _, _, _, _, _, _, h@(.emptyObject hg), h', _, _, heq => by
    have hk := h.kind_eq h' heq
    cases h' with
    | emptyObject hg' =>
      obtain ⟨rfl, -⟩ := hg.cons_inj hg' rfl rfl (append_of_cons_append heq)
      exact ⟨rfl, rfl⟩
    | object hg' hm' =>
      exact absurd (hg.append_inj hg' (Ends.cons rfl) hm'.ends (append_of_cons_append heq)).2.symm hm'.ne
    | _ => cases hk
  | _, _, _, _, _, _, h@(.object hg hm), h', _, _, heq => by
    have hk := h.kind_eq h' heq
    cases h' with
    | emptyObject hg' => exact absurd (hg.append_inj hg' hm.ends (Ends.cons rfl) (append_of_cons_append heq)).2 hm.ne
    | object hg' hm' =>
      obtain ⟨rfl, hms⟩ := hg.append_inj hg' hm.ends hm'.ends (append_of_cons_append heq)
      obtain ⟨rfl, rfl⟩ := hm.unique hm' hms
      exact ⟨rfl, rfl⟩
    | _ => cases hk
termination_by structural _ _ _ _ _ _ h => h

theorem Elements.unique : ∀ {t t' r r' : List Char} {vs vs' : List Value}, Elements t vs → Elements t' vs' →
    t ++ r = t' ++ r' → t = t' ∧ vs = vs'
  | _, _, _, _, _, _, .last h hg, .last h' hg', heq => by
    simp only [List.append_assoc, List.cons_append, List.nil_append] at heq
    obtain ⟨rfl, rfl⟩ := h.unique h' (hg.ends (Ends.cons rfl)) (hg'.ends (Ends.cons rfl)) heq
    obtain ⟨rfl, -⟩ := hg.cons_inj hg' rfl rfl (List.append_cancel_left heq)
    exact ⟨rfl, rfl⟩
  | _, _, _, _, _, _, .last h hg, .cons h' hg' _ _, heq => by
    simp only [List.append_assoc, List.cons_append, List.nil_append] at heq
    obtain ⟨rfl, rfl⟩ := h.unique h' (hg.ends (Ends.cons rfl)) (hg'.ends (Ends.cons rfl)) heq
    exact absurd (hg.cons_inj hg' rfl rfl (List.append_cancel_left heq)).2.1 (by decide)
  | _, _, _, _, _, _, .cons h hg _ _, .last h' hg', heq => by
    simp only [List.append_assoc, List.cons_append, List.nil_append] at heq
    obtain ⟨rfl, rfl⟩ := h.unique h' (hg.ends (Ends.cons rfl)) (hg'.ends (Ends.cons rfl)) heq
    exact absurd (hg.cons_inj hg' rfl rfl (List.append_cancel_left heq)).2.1 (by decide)
  | _, _, _, _, _, _, .cons h hg hk hs, .cons h' hg' hk' hs', heq => by
    simp only [List.append_assoc, List.cons_append] at heq
    obtain ⟨rfl, rfl⟩ := h.unique h' (hg.ends (Ends.cons rfl)) (hg'.ends (Ends.cons rfl)) heq
    obtain ⟨rfl, -, hrest⟩ := hg.cons_inj hg' rfl rfl (List.append_cancel_left heq)
    obtain ⟨rfl, hnext⟩ := hk.append_inj hk' hs.ends hs'.ends hrest
    obtain ⟨rfl, rfl⟩ := hs.unique hs' hnext
    exact ⟨rfl, rfl⟩
termination_by structural _ _ _ _ _ _ h => h

theorem Member.unique : ∀ {t t' r r' : List Char} {m m' : List Nat × Value}, Member t m → Member t' m' →
    Ends isNumberChar r → Ends isNumberChar r' → t ++ r = t' ++ r' → t = t' ∧ m = m'
  | _, _, _, _, _, _, .mk hs hg hk h, .mk hs' hg' hk' h', hr, hr', heq => by
    simp only [List.cons_append, List.append_assoc, List.cons.injEq, true_and] at heq
    obtain ⟨rfl, rfl⟩ := hs.unique hs' heq
    obtain ⟨rfl, -, hrest⟩ := hg.cons_inj hg' rfl rfl (List.cons.inj (List.append_cancel_left heq)).2
    obtain ⟨rfl, hvalue⟩ := hk.append_inj hk' h.ends h'.ends hrest
    obtain ⟨rfl, rfl⟩ := h.unique h' hr hr' hvalue
    exact ⟨rfl, rfl⟩
termination_by structural _ _ _ _ _ _ h => h

theorem Members.unique : ∀ {t t' r r' : List Char} {ms ms' : List (List Nat × Value)}, Members t ms → Members t' ms' →
    t ++ r = t' ++ r' → t = t' ∧ ms = ms'
  | _, _, _, _, _, _, .last h hg, .last h' hg', heq => by
    simp only [List.append_assoc, List.cons_append, List.nil_append] at heq
    obtain ⟨rfl, rfl⟩ := h.unique h' (hg.ends (Ends.cons rfl)) (hg'.ends (Ends.cons rfl)) heq
    obtain ⟨rfl, -⟩ := hg.cons_inj hg' rfl rfl (List.append_cancel_left heq)
    exact ⟨rfl, rfl⟩
  | _, _, _, _, _, _, .last h hg, .cons h' hg' _ _, heq => by
    simp only [List.append_assoc, List.cons_append, List.nil_append] at heq
    obtain ⟨rfl, rfl⟩ := h.unique h' (hg.ends (Ends.cons rfl)) (hg'.ends (Ends.cons rfl)) heq
    exact absurd (hg.cons_inj hg' rfl rfl (List.append_cancel_left heq)).2.1 (by decide)
  | _, _, _, _, _, _, .cons h hg _ _, .last h' hg', heq => by
    simp only [List.append_assoc, List.cons_append, List.nil_append] at heq
    obtain ⟨rfl, rfl⟩ := h.unique h' (hg.ends (Ends.cons rfl)) (hg'.ends (Ends.cons rfl)) heq
    exact absurd (hg.cons_inj hg' rfl rfl (List.append_cancel_left heq)).2.1 (by decide)
  | _, _, _, _, _, _, .cons h hg hk hs, .cons h' hg' hk' hs', heq => by
    simp only [List.append_assoc, List.cons_append] at heq
    obtain ⟨rfl, rfl⟩ := h.unique h' (hg.ends (Ends.cons rfl)) (hg'.ends (Ends.cons rfl)) heq
    obtain ⟨rfl, -, hrest⟩ := hg.cons_inj hg' rfl rfl (List.append_cancel_left heq)
    obtain ⟨rfl, hnext⟩ := hk.append_inj hk' hs.ends hs'.ends hrest
    obtain ⟨rfl, rfl⟩ := hs.unique hs' hnext
    exact ⟨rfl, rfl⟩
termination_by structural _ _ _ _ _ _ h => h

end

/-- A JSON text stands for one value. -/
theorem IsText.unique {w : List Char} {v v' : Value} (h : IsText w v) (h' : IsText w v') : v = v' := by
  obtain ⟨g, t, k, hg, ht, hk, rfl⟩ := h
  obtain ⟨g', t', k', hg', ht', hk', heq⟩ := h'
  obtain ⟨rfl, hvalue⟩ := hg.append_inj hg' ht.ends ht'.ends heq
  rw [← List.append_nil k, ← List.append_nil k'] at hvalue
  exact (ht.unique ht' (hk.ends Ends.nil) (hk'.ends Ends.nil) hvalue).2

end RecordGrammar.JsonText
