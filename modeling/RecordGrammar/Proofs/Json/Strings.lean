import RecordGrammar.Json.Writer
import RecordGrammar.Proofs.Json.Unique
import RecordGrammar.Proofs.Shape.Texts
import RecordGrammar.Proofs.Text.Classes

/-!
# What may stand in a JSON string

`strings` holds the languages whose texts may stand between the quotes of a JSON string. A literal spells the very text
that it was written for (`spells_literal`), and no other text has the same units (`utf16_inj`).
-/

namespace RecordGrammar.JsonText

namespace Chars

theorem append {s t : List Char} {u v : List Nat} (h : Chars s u) (ht : Chars t v) : Chars (s ++ t) (u ++ v) := by
  induction h with
  | nil => exact ht
  | plain hc _ ih =>
    rw [List.append_assoc]
    exact ih.plain hc
  | escape hl _ ih => exact ih.escape hl
  | unit hlen hds _ ih =>
    rw [List.cons_append, List.cons_append, List.append_assoc]
    exact ih.unit hlen hds

theorem of_plain {s : List Char} (h : ∀ c ∈ s, isPlain c = true) : ∃ u, Chars s u := by
  induction s with
  | nil => exact ⟨[], nil⟩
  | cons c s ih =>
    obtain ⟨hc, hs⟩ := List.forall_mem_cons.mp h
    obtain ⟨u, hu⟩ := ih hs
    exact ⟨_, hu.plain hc⟩

theorem break_not_mem {s : List Char} {u : List Nat} (h : Chars s u) : '\n' ∉ s := by
  induction h with
  | nil => exact List.not_mem_nil
  | plain hc _ ih =>
    rw [List.mem_cons, not_or]
    refine ⟨fun heq => ?_, ih⟩
    rw [← heq] at hc
    exact absurd hc (by decide)
  | escape hl _ ih =>
    rw [List.mem_cons, List.mem_cons, not_or, not_or]
    refine ⟨by decide, fun heq => ?_, ih⟩
    rw [← heq] at hl
    cases hl
  | unit _ hds _ ih =>
    rw [List.mem_cons, List.mem_cons, List.mem_append, not_or, not_or, not_or]
    exact ⟨by decide, by decide, fun hmem => absurd (hds _ hmem) (by decide), ih⟩

end Chars

/-- One character or escape of a string, and its units. -/
inductive Part : List Char → List Nat → Prop where
  | plain {c : Char} (hc : isPlain c = true) : Part [c] (unitsOf c)
  | escape {l c : Char} (hl : Json.unescape? l = some c) : Part ['\\', l] [c.toNat]
  | unit {ds : List Char} (hlen : ds.length = 4) (hds : ∀ d ∈ ds, Text.isHexDigit d = true) :
    Part ('\\' :: 'u' :: ds) [Text.valueOfHexDigits ds]

theorem Part.chars {s : List Char} {u : List Nat} (h : Part s u) : Chars s u := by
  cases h with
  | plain hc => simpa using Chars.nil.plain hc
  | escape hl => exact Chars.nil.escape hl
  | unit hlen hds => simpa using Chars.nil.unit hlen hds

/-- A character or escape tells where it ends. -/
theorem Part.append_inj {s s' r r' : List Char} {u u' : List Nat} (h : Part s u) (h' : Part s' u')
    (heq : s ++ r = s' ++ r') : s = s' ∧ r = r' := by
  cases h with
  | plain hc =>
    cases h' with
    | plain =>
      obtain ⟨rfl, rfl⟩ := List.cons.inj heq
      exact ⟨rfl, rfl⟩
    | escape | unit => exact absurd ((List.cons.inj heq).1 ▸ hc) (by decide)
  | escape hl =>
    cases h' with
    | plain hc => exact absurd ((List.cons.inj heq).1 ▸ hc) (by decide)
    | escape =>
      obtain ⟨rfl, rfl⟩ := List.cons.inj (List.cons.inj heq).2
      exact ⟨rfl, rfl⟩
    | unit =>
      rw [(List.cons.inj (List.cons.inj heq).2).1] at hl
      cases hl
  | unit hlen =>
    cases h' with
    | plain hc => exact absurd ((List.cons.inj heq).1 ▸ hc) (by decide)
    | escape hl =>
      rw [← (List.cons.inj (List.cons.inj heq).2).1] at hl
      cases hl
    | unit hlen' =>
      simp only [List.cons_append, List.cons.injEq, true_and] at heq
      obtain ⟨rfl, rfl⟩ := List.append_inj heq (hlen.trans hlen'.symm)
      exact ⟨rfl, rfl⟩

theorem Part.ne_quote {s r r' : List Char} {u : List Nat} (h : Part s u) : s ++ r ≠ '"' :: r' := by
  intro heq
  cases h with
  | plain hc => exact absurd ((List.cons.inj heq).1 ▸ hc) (by decide)
  | escape | unit => exact absurd (List.cons.inj heq).1 (by decide)

/-- The languages of texts that may stand in a string. -/
def strings : Subsemiring (Language Char) :=
  within (fun s => ∃ u, Chars s u) ⟨[], .nil⟩ fun _ _ ⟨u, h⟩ ⟨v, h'⟩ => ⟨u ++ v, h.append h'⟩

theorem mem_strings_of_madeOf {l : Language Char} (h : l ∈ madeOf isPlain) : l ∈ strings :=
  fun w hw => Chars.of_plain (h w hw)

/-! ### Units -/

/-- The units of a character tell where they end: the halves of a pair are the units of no character. -/
theorem unitsOf_append_inj {c d : Char} {u v : List Nat} (h : unitsOf c ++ u = unitsOf d ++ v) : c = d ∧ u = v := by
  have hc : c.toNat < 0xd800 ∨ 0xdfff < c.toNat ∧ c.toNat < 0x110000 := c.valid
  have hd : d.toNat < 0xd800 ∨ 0xdfff < d.toNat ∧ d.toNat < 0x110000 := d.valid
  rw [char_eq_iff]
  rw [unitsOf, unitsOf] at h
  split at h <;> split at h
  · exact List.cons.inj h
  · have := (List.cons.inj h).1
    omega
  · have := (List.cons.inj h).1
    omega
  · obtain ⟨hhigh, htail⟩ := List.cons.inj h
    obtain ⟨hlow, hrest⟩ := List.cons.inj htail
    exact ⟨by omega, hrest⟩

theorem unitsOf_ne_nil (c : Char) : unitsOf c ≠ [] := by
  rw [unitsOf]
  split <;> exact List.cons_ne_nil _ _

theorem flatMap_unitsOf_inj {a b : List Char} (h : a.flatMap unitsOf = b.flatMap unitsOf) : a = b := by
  induction a generalizing b with
  | nil =>
    cases b with
    | nil => rfl
    | cons d b => exact absurd (List.append_eq_nil_iff.mp h.symm).1 (unitsOf_ne_nil d)
  | cons c a ih =>
    cases b with
    | nil => exact absurd (List.append_eq_nil_iff.mp h).1 (unitsOf_ne_nil c)
    | cons d b =>
      obtain ⟨rfl, hrest⟩ := unitsOf_append_inj h
      rw [ih hrest]

/-- A text can be read off its units, so a decoded name is the name of one field only. -/
theorem utf16_inj {s t : String} (h : utf16 s = utf16 t) : s = t := String.toList_inj.mp (flatMap_unitsOf_inj h)

/-! ### Literals -/

theorem isPlain_iff {c : Char} : isPlain c = true ↔ c.toNat ≠ 0x22 ∧ c.toNat ≠ 0x5c ∧ 0x20 ≤ c.toNat := by
  simp [isPlain, char_eq_iff, and_assoc]

/-- The escape of a control character has its code. -/
theorem hexDigits_control : ∀ n < 0x20, (Text.hexDigits 4 n).length = 4 ∧
    (Text.hexDigits 4 n).all Text.isHexDigit = true ∧ Text.valueOfHexDigits (Text.hexDigits 4 n) = n := by
  decide

/-- A short escape is read back as the character that it was chosen for. -/
theorem unescape?_of_escapeLetter? {c l : Char} (h : Json.escapeLetter? c = some l) :
    Json.unescape? l = some c ∧ unitsOf c = [c.toNat] := by
  unfold Json.escapeLetter? at h
  split at h <;> cases h <;> exact ⟨rfl, rfl⟩

theorem isPlain_of_escapeLetter? {c : Char} (h : Json.escapeLetter? c = none) (hc : ¬ c.toNat < 0x20) :
    isPlain c = true := by
  have hne : ∀ d, (Json.escapeLetter? d).isSome = true → c.toNat ≠ d.toNat := fun d hd heq => by
    rw [← char_eq_iff.mpr heq, h] at hd
    cases hd
  exact isPlain_iff.mpr ⟨hne '"' rfl, hne '\\' rfl, by omega⟩

theorem chars_literalChar (c : Char) : Chars (Json.literalChar c) (unitsOf c) := by
  rw [Json.literalChar]
  split
  · next l hl =>
    obtain ⟨hc, hu⟩ := unescape?_of_escapeLetter? hl
    rw [hu]
    exact Chars.nil.escape hc
  · next hl =>
    split
    · next hc =>
      obtain ⟨hlen, hds, hval⟩ := hexDigits_control c.toNat hc
      have h := Chars.nil.unit hlen (List.all_eq_true.mp hds)
      rw [List.append_nil, hval] at h
      rwa [unitsOf, if_pos (by omega)]
    · next hc =>
      have h := Chars.nil.plain (isPlain_of_escapeLetter? hl hc)
      rwa [List.append_nil] at h

theorem chars_literal (s : List Char) : Chars (s.flatMap Json.literalChar) (s.flatMap unitsOf) := by
  induction s with
  | nil => exact .nil
  | cons c s ih =>
    rw [List.flatMap_cons, List.flatMap_cons]
    exact (chars_literalChar c).append ih

/-- A literal stands for the units of its text. -/
theorem spells_literal (s : String) : Spells (Json.literal s).toList (.string (utf16 s)) := by
  rw [Json.literal, String.toList_ofList]
  exact .string (chars_literal s.toList)

/-! ### The strings of a record -/

theorem isPlain_of_isAlphanum {c : Char} (h : c.isAlphanum = true) : isPlain c = true := by
  simp only [Char.isAlphanum, Char.isAlpha, Bool.or_eq_true, isUpper_iff, isLower_iff, isDigit_iff, char_le_iff,
    Char.reduceToNat] at h
  rw [isPlain_iff]
  omega

theorem isPlain_of_isHexDigit {c : Char} (h : Text.isHexDigit c = true) : isPlain c = true := by
  simp only [isHexDigit_iff, char_le_iff, Char.reduceToNat] at h
  rw [isPlain_iff]
  omega

theorem isPlain_of_isDigit {c : Char} (h : c.isDigit = true) : isPlain c = true :=
  isPlain_of_isAlphanum (by rw [Char.isAlphanum, h, Bool.or_true])

theorem isPlain_of_holds {f : NamedFormat} {c : Char} (h : f.Holds c) : isPlain c = true := by
  cases f with
  | hex => exact isPlain_of_isHexDigit h
  | alphaSpace =>
    rcases h with h | rfl
    · exact isPlain_of_isAlphanum (by simp [Char.isAlphanum, h])
    · rfl
  | _ => exact isPlain_of_isAlphanum (by simp_all [NamedFormat.Holds, Char.isAlphanum, Char.isAlpha])

theorem digitOf_mem {lo hi : Nat} (h : hi ≤ 9) : digitOf lo hi ∈ madeOf isPlain :=
  digitOf_mem_madeOf (fun _ hc => isPlain_of_isDigit hc) h

theorem numberOf_mem {lo hi : Nat} (h : hi ≤ 99) : numberOf lo hi ∈ madeOf isPlain := fun w ⟨n, _, hn, hw⟩ => by
  have hten := digitOf_mem (Nat.le_refl 9) _ (mem_digitOf.mpr ⟨n / 10, Nat.zero_le _, by omega, rfl⟩)
  have hone := digitOf_mem (Nat.le_refl 9) _ (mem_digitOf.mpr ⟨n % 10, Nat.zero_le _, by omega, rfl⟩)
  rw [hw]
  exact List.forall_mem_cons.mpr ⟨hten _ List.mem_cons_self, hone⟩

theorem hexTexts_mem : hexTexts ∈ madeOf isPlain := oneChar_mem_madeOf fun _ hc => isPlain_of_isHexDigit hc

theorem guidTexts_mem : guidTexts ∈ madeOf isPlain := by
  have hdash : just "-" ∈ madeOf isPlain := just_mem_madeOf (by decide)
  have hhex (n : Nat) : hexTexts ^ n ∈ madeOf isPlain := pow_mem hexTexts_mem n
  exact mul_mem (mul_mem (mul_mem (mul_mem (mul_mem (mul_mem (mul_mem (mul_mem (hhex 8) hdash) (hhex 4)) hdash) (hhex 4))
    hdash) (hhex 4)) hdash) (hhex 12)

theorem clockTexts_mem : clockTexts ∈ madeOf isPlain :=
  mul_mem (mul_mem (numberOf_mem (by omega)) (just_mem_madeOf (by decide))) (numberOf_mem (by omega))

theorem dateTexts_mem : dateTexts ∈ madeOf isPlain := by
  have hdigits (n : Nat) : digitTexts ^ n ∈ madeOf isPlain := pow_mem (digitOf_mem (Nat.le_refl 9)) n
  have hdash : just "-" ∈ madeOf isPlain := just_mem_madeOf (by decide)
  have hday : digitTexts ^ 4 * just "-" * numberOf 1 12 * just "-" * numberOf 1 31 ∈ madeOf isPlain :=
    mul_mem (mul_mem (mul_mem (mul_mem (hdigits 4) hdash) (numberOf_mem (by omega))) hdash) (numberOf_mem (by omega))
  have hsecond : just ":" * numberOf 0 59 * (1 + just "." * digitTexts ^ 3) ∈ madeOf isPlain :=
    mul_mem (mul_mem (just_mem_madeOf (by decide)) (numberOf_mem (by omega)))
      (add_mem (one_mem _) (mul_mem (just_mem_madeOf (by decide)) (hdigits 3)))
  have hoffset : just "Z" + oneChar (fun c => c = '+' ∨ c = '-') * clockTexts ∈ madeOf isPlain :=
    add_mem (just_mem_madeOf (by decide)) (mul_mem (oneChar_mem_madeOf (by rintro c (rfl | rfl) <;> rfl)) clockTexts_mem)
  have h := mul_mem (mul_mem (mul_mem (mul_mem hday (just_mem_madeOf (s := "T") (by decide))) clockTexts_mem) hsecond) hoffset
  rwa [← mul_assoc, ← mul_assoc] at h

theorem exists_part_of_mem_charTexts {d : Delimiters} {w : List Char} (h : w ∈ charTexts d) : ∃ u, Part w u := by
  rcases h with ⟨c, hc, rfl⟩ | ⟨_, rfl, _, ⟨l, hl, rfl⟩ | ⟨_, rfl, ds, hds, rfl⟩, rfl⟩
  · exact ⟨_, .plain (by simp [isPlain, hc])⟩
  · have hletter : ['"', '\\', 'b', 'f', 'n', 'r', 't'].all (Json.unescape? · |>.isSome) = true := by decide
    obtain ⟨c, hc⟩ := Option.isSome_iff_exists.mp (List.all_eq_true.mp hletter l hl)
    exact ⟨_, .escape hc⟩
  · have hhex : ∀ c ∈ ds, Text.isHexDigit c = true := pow_mem (oneChar_mem_madeOf fun _ hc => hc) 4 ds hds
    exact ⟨_, .unit (length_of_mem_oneChar_pow hds) hhex⟩

theorem charTexts_mem (d : Delimiters) : charTexts d ∈ strings := fun _ hw =>
  (exists_part_of_mem_charTexts hw).imp fun _ h => h.chars

/-- Whether a character or escape of a string, with its units, is what a character of a pattern asks for. -/
def Fits (d : Delimiters) : Char → List Char → List Nat → Prop
  | '#', _, u | '9', _, u => ∃ x : Char, x.isDigit ∧ u = unitsOf x
  | 'A', _, u => ∃ x : Char, x.isUpper ∧ u = unitsOf x
  | 'a', _, u => ∃ x : Char, x.isLower ∧ u = unitsOf x
  | '*', _, u => ∃ x : Char, x.isAlphanum ∧ u = unitsOf x
  | '?', s, _ => s ∈ charTexts d
  | c, _, u => u = unitsOf c

/-- A text of a class of plain characters is one of them. -/
theorem part_of_mem_oneChar {p : Char → Prop} (hp : ∀ c, p c → isPlain c = true) {w : List Char} (h : w ∈ oneChar p) :
    ∃ u, Part w u ∧ ∃ x, p x ∧ u = unitsOf x := by
  obtain ⟨c, hc, rfl⟩ := h
  exact ⟨_, .plain (hp c hc), c, hc, rfl⟩

theorem exists_part_of_mem_patternTexts {d : Delimiters} {c : Char} {w : List Char} (hc : isPlain c = true)
    (h : w ∈ patternTexts d c) : ∃ u, Part w u ∧ Fits d c w u := by
  have hdigit : w ∈ digitTexts → ∃ u, Part w u ∧ ∃ x : Char, x.isDigit ∧ u = unitsOf x := by
    rintro ⟨n, -, hn, rfl⟩
    have hd : n.digitChar.isDigit = true := by
      rw [Nat.isDigit_digitChar, decide_eq_true_eq]
      omega
    exact part_of_mem_oneChar (fun _ => isPlain_of_isDigit) ⟨_, hd, rfl⟩
  unfold patternTexts at h
  split at h
  · exact hdigit h
  · exact hdigit h
  · exact part_of_mem_oneChar (fun c hc => isPlain_of_isAlphanum (by simp [Char.isAlphanum, Char.isAlpha, hc])) h
  · exact part_of_mem_oneChar (fun c hc => isPlain_of_isAlphanum (by simp [Char.isAlphanum, Char.isAlpha, hc])) h
  · exact part_of_mem_oneChar (fun _ => isPlain_of_isAlphanum) h
  · obtain ⟨u, hu⟩ := exists_part_of_mem_charTexts h
    exact ⟨u, hu, h⟩
  · rw [mem_just, String.toList_singleton] at h
    subst h
    refine ⟨_, .plain hc, ?_⟩
    rw [Fits] <;> assumption

theorem patternTexts_mem (d : Delimiters) {c : Char} (h : isPlain c = true) : patternTexts d c ∈ strings := fun _ hw =>
  (exists_part_of_mem_patternTexts h hw).imp fun _ h => h.1.chars

end RecordGrammar.JsonText
