import RecordGrammar.Grammar.Segment
import RecordGrammar.Text.LetterCase
import RecordGrammar.Proofs.Text.Classes

/-!
# The form of segments

A segment is a word of small letters, digits and dashes with no dash at either end, and the words are just the texts
that are segments of themselves (`Segment.segments_are_words`). `Segment.stages_iff` tells which word it is: that of the
name in the lower case of all of Unicode, with a dash for each longest run of characters that no rule's name holds.
-/

namespace RecordGrammar

/-! ### Trimmed texts -/

namespace Text
variable {p : Char → Bool} {cs : List Char}

theorem trimWhile_eq (p : Char → Bool) (cs : List Char) : trimWhile p cs = (cs.dropWhile p).rdropWhile p := rfl

theorem mem_of_mem_trimWhile {c : Char} (h : c ∈ trimWhile p cs) : c ∈ cs :=
  (List.dropWhile_sublist p).mem ((List.rdropWhile_prefix p _).mem h)

theorem head?_trimWhile {c : Char} (h : (trimWhile p cs).head? = some c) : p c = false := by
  -- what is dropped at the end leaves the first character in its place
  obtain ⟨rest, hrest⟩ := List.rdropWhile_prefix p (cs.dropWhile p)
  have hc : (cs.dropWhile p).head? = some c := by
    rw [← hrest, List.head?_append, ← trimWhile_eq, h]
    rfl
  simpa [hc] using List.head?_dropWhile_not p cs

theorem getLast?_trimWhile {c : Char} (h : (trimWhile p cs).getLast? = some c) : p c = false := by
  rw [trimWhile_eq, List.rdropWhile, List.getLast?_reverse] at h
  simpa [h] using List.head?_dropWhile_not p (cs.dropWhile p).reverse

theorem trimWhile_eq_self (hhead : ∀ c, cs.head? = some c → p c = false)
    (hlast : ∀ c, cs.getLast? = some c → p c = false) : trimWhile p cs = cs := by
  cases cs with
  | nil => rfl
  | cons c rest =>
    have hdrop : (c :: rest).dropWhile p = c :: rest := List.dropWhile_cons_of_neg (by simp [hhead c rfl])
    rw [trimWhile_eq, hdrop]
    exact List.rdropWhile_eq_self_iff.mpr fun hl => by simp [hlast _ (List.getLast?_eq_some_getLast hl)]

/-! ### Lower case -/

/-- The second text is the first one in lower case, whichever form the sigmas take. -/
inductive Lowered : List Char → List Char → Prop where
  | nil : Lowered [] []
  | cons {cs low : List Char} (c : Char) (after : List Char) (rest : Lowered cs low) :
      Lowered (c :: cs) (lowerChar c after ++ low)

theorem exists_lowered (cs : List Char) : ∃ low, Lowered cs low := by
  induction cs with
  | nil => exact ⟨[], .nil⟩
  | cons c cs ih =>
    obtain ⟨low, h⟩ := ih
    exact ⟨_, h.cons c cs⟩

theorem shifted_cases (runs : List (Nat × Nat × Nat × Nat)) (n : Nat) :
    shifted runs n = n ∨ ∃ r ∈ runs, r.1 ≤ n ∧ n ≤ r.2.1 ∧ shifted runs n = r.2.2.2 + (n - r.1) := by
  rw [shifted]
  split
  · next first last step image h =>
    have hrun := List.find?_some h
    simp only [Bool.and_eq_true, decide_eq_true_eq] at hrun
    exact .inr ⟨_, List.mem_of_find?_eq_some h, hrun.1.1, hrun.1.2, rfl⟩
  · exact .inl rfl

theorem shifted_cons_of_le {runs : List (Nat × Nat × Nat × Nat)} {first last step image n : Nat} (h : first ≤ n)
    (h' : n ≤ last) (hstep : (n - first) % step = 0) :
    shifted ((first, last, step, image) :: runs) n = image + (n - first) := by
  rw [shifted, List.find?_cons_of_pos (by simp [h, h', hstep])]

/-- Beyond ASCII only the sign of the unit kelvin has a lower case in ASCII. -/
theorem lowerRuns_cases : ∀ r ∈ lowerRuns,
    r = (0x41, 0x5A, 1, 0x61) ∨ r = (0x212A, 0x212A, 1, 0x6B) ∨ 0x80 ≤ r.1 ∧ 0x80 ≤ r.2.2.2 := by
  decide +kernel

theorem shifted_lowerRuns_of_isUpper {n : Nat} (h : 0x41 ≤ n) (h' : n ≤ 0x5A) : shifted lowerRuns n = n + 32 := by
  have hrun : shifted lowerRuns n = 0x61 + (n - 0x41) := shifted_cons_of_le h h' (Nat.mod_one _)
  omega

theorem shifted_lowerRuns_cases {n : Nat} (h : n < 0x41 ∨ 0x5A < n) (hkelvin : n ≠ 0x212A) :
    shifted lowerRuns n = n ∨ 0x80 ≤ n ∧ 0x80 ≤ shifted lowerRuns n := by
  rcases shifted_cases lowerRuns n with heq | ⟨r, hr, hfirst, hlast, heq⟩
  · exact .inl heq
  · rcases lowerRuns_cases r hr with rfl | rfl | ⟨hrun, himage⟩
    · simp only at hfirst hlast
      omega
    · simp only at hfirst hlast
      omega
    · exact .inr ⟨by omega, by omega⟩

end Text

namespace Segment
variable {c : Char} {cs ds name low : List Char} {inRun : Bool}

/-! ### Characters -/

theorem isSafe_iff : isSafe c = true ↔ ('a' ≤ c ∧ c ≤ 'z') ∨ ('0' ≤ c ∧ c ≤ '9') ∨ c = '-' := by
  simp only [isSafe, Bool.or_eq_true, Bool.and_eq_true, decide_eq_true_eq, or_assoc]

theorem isSafe_iff_toNat : isSafe c = true ↔
    (0x61 ≤ c.toNat ∧ c.toNat ≤ 0x7A) ∨ (0x30 ≤ c.toNat ∧ c.toNat ≤ 0x39) ∨ c.toNat = 0x2D := by
  rw [isSafe_iff]
  exact or_congr (and_congr char_le_iff char_le_iff) (or_congr (and_congr char_le_iff char_le_iff) char_eq_iff)

theorem isSafe_eq_false (h : 0x80 ≤ c.toNat) : isSafe c = false := by
  rw [← Bool.not_eq_true, isSafe_iff_toNat]
  omega

theorem isSafe_ofNat {n : Nat} (h : 0x80 ≤ n) : isSafe (Char.ofNat n) = false := by
  by_cases hn : n.isValidChar
  · exact isSafe_eq_false (by rwa [Char.toNat_ofNat, if_pos hn])
  · -- no code point of a character either: `Char.ofNat` is the null character
    rw [Char.ofNat, dif_neg hn]
    rfl

theorem lower_of_isSafe (h : isSafe c = true) : lower c = [c] := by
  rw [isSafe_iff_toNat] at h
  have hupper : ¬ c.isUpper = true := by
    rw [isUpper_iff_toNat]
    omega
  have hkelvin : c ≠ '\u212a' := by
    rintro rfl
    exact absurd h (by decide)
  have hdotted : c ≠ '\u0130' := by
    rintro rfl
    exact absurd h (by decide)
  rw [lower, if_neg hkelvin, if_neg hdotted, Char.toLower_eq_of_not_isUpper hupper]

theorem flatMap_lower_of_isSafe (h : ∀ c ∈ cs, isSafe c = true) : cs.flatMap lower = cs := by
  induction cs with
  | nil => rfl
  | cons c cs ih =>
    rw [List.forall_mem_cons] at h
    rw [List.flatMap_cons, lower_of_isSafe h.1, ih h.2]
    rfl

/-! ### Runs of other characters -/

theorem isSafe_of_mem_dashRuns : ∀ {inRun : Bool} {cs : List Char}, c ∈ dashRuns inRun cs → isSafe c = true
  | _, [], h => by simp [dashRuns] at h
  | inRun, d :: cs, h => by
    rw [dashRuns] at h
    split at h
    · next hd =>
      rcases List.mem_cons.mp h with rfl | h
      · exact hd
      · exact isSafe_of_mem_dashRuns h
    · split at h
      · exact isSafe_of_mem_dashRuns h
      · rcases List.mem_cons.mp h with rfl | h
        · decide
        · exact isSafe_of_mem_dashRuns h

theorem dashRuns_of_isSafe (h : ∀ c ∈ cs, isSafe c = true) : dashRuns inRun cs = cs := by
  induction cs generalizing inRun with
  | nil => rfl
  | cons c cs ih =>
    rw [List.forall_mem_cons] at h
    rw [dashRuns, if_pos h.1, ih h.2]

/-! ### Words -/

/-- The text is a word of small letters, digits and dashes with no dash at either end. -/
@[mk_iff]
structure IsWord (cs : List Char) : Prop where
  ne_nil : cs ≠ []
  letters : ∀ c ∈ cs, ('a' ≤ c ∧ c ≤ 'z') ∨ ('0' ≤ c ∧ c ≤ '9') ∨ c = '-'
  head : cs.head? ≠ some '-'
  last : cs.getLast? ≠ some '-'

-- `all` goes through the text, where the quantifier would go through every character there is
instance : DecidablePred IsWord := fun cs =>
  decidable_of_iff (cs ≠ [] ∧ cs.all isSafe = true ∧ cs.head? ≠ some '-' ∧ cs.getLast? ≠ some '-') (by
    simp only [isWord_iff, List.all_eq_true, isSafe_iff])

/-- The text without the dashes at its ends; `field` if nothing is left. -/
def trimmed (cs : List Char) : List Char :=
  match Text.trimWhile (· = '-') cs with
  | [] => ['f', 'i', 'e', 'l', 'd']
  | cs => cs

theorem chars_eq (name : List Char) : chars name = trimmed (dashRuns false (name.flatMap lower)) := rfl

theorem isWord_trimmed (h : ∀ c ∈ cs, isSafe c = true) : IsWord (trimmed cs) := by
  rw [trimmed]
  split
  · decide
  · next hne =>
    exact {
      ne_nil := hne
      letters := fun c hc => isSafe_iff.mp (h c (Text.mem_of_mem_trimWhile hc))
      head := fun hdash => by simpa using Text.head?_trimWhile hdash
      last := fun hdash => by simpa using Text.getLast?_trimWhile hdash }

theorem IsWord.trimmed_eq (h : IsWord cs) : trimmed cs = cs := by
  have hhead (c : Char) (hc : cs.head? = some c) : decide (c = '-') = false :=
    decide_eq_false fun hdash => h.head (hdash ▸ hc)
  have hlast (c : Char) (hc : cs.getLast? = some c) : decide (c = '-') = false :=
    decide_eq_false fun hdash => h.last (hdash ▸ hc)
  rw [trimmed, Text.trimWhile_eq_self hhead hlast]
  split
  · exact absurd rfl h.ne_nil
  · rfl

theorem isWord_chars (name : List Char) : IsWord (chars name) :=
  isWord_trimmed fun _ hc => isSafe_of_mem_dashRuns hc

theorem isSafe_of_mem_chars (h : c ∈ chars name) : isSafe c = true :=
  isSafe_iff.mpr ((isWord_chars name).letters c h)

theorem IsWord.chars_eq_self (h : IsWord name) : chars name = name := by
  have hsafe : ∀ c ∈ name, isSafe c = true := fun c hc => isSafe_iff.mpr (h.letters c hc)
  rw [chars_eq, flatMap_lower_of_isSafe hsafe, dashRuns_of_isSafe hsafe, h.trimmed_eq]

theorem isWord_ofName (name : String) : IsWord (ofName name).toList := by
  rw [ofName, String.toList_ofList]
  exact isWord_chars _

theorem ofName_eq_self {name : String} (h : IsWord name.toList) : ofName name = name := by
  rw [ofName, h.chars_eq_self, String.ofList_toList]

/-- Every segment is a word and its own segment, and the texts that are their own segments are the words. -/
theorem segments_are_words (name : String) :
    IsWord (ofName name).toList ∧ ofName (ofName name) = ofName name ∧ (ofName name = name ↔ IsWord name.toList) := by
  refine ⟨isWord_ofName name, ofName_eq_self (isWord_ofName name), ?_, ofName_eq_self⟩
  intro h
  rw [← h]
  exact isWord_ofName name

example : ofName "-\u0130--\u212a-" = "i---k" ∧ IsWord "i---k".toList := by decide

/-! ### The stages -/

/-- The two characters are one, or a name holds neither. -/
def Alike (c d : Char) : Prop := c = d ∨ isSafe c = false ∧ isSafe d = false

/-- Characters that no name holds may stand for each other. -/
theorem dashRuns_congr (h : List.Forall₂ Alike cs ds) : dashRuns inRun cs = dashRuns inRun ds := by
  induction h generalizing inRun with
  | nil => rfl
  | cons hcd _ ih =>
    rcases hcd with rfl | ⟨hc, hd⟩
    · simp only [dashRuns, ih]
    · simp only [dashRuns, hc, hd, ih, Bool.false_eq_true, if_false]

theorem alike_toLower_shifted (hkelvin : c ≠ '\u212a') :
    Alike c.toLower (Char.ofNat (Text.shifted Text.lowerRuns c.toNat)) := by
  by_cases hupper : c.isUpper = true
  · have hc := isUpper_iff_toNat.mp hupper
    exact .inl (by rw [Char.toLower_eq_of_isUpper hupper, Text.shifted_lowerRuns_of_isUpper hc.1 hc.2])
  · rw [Char.toLower_eq_of_not_isUpper hupper]
    have hc : c.toNat < 0x41 ∨ 0x5A < c.toNat := by
      rw [isUpper_iff_toNat] at hupper
      omega
    rcases Text.shifted_lowerRuns_cases hc (fun h => hkelvin (char_eq_iff.mpr h)) with heq | ⟨hn, himage⟩
    · exact .inl (by rw [heq, Char.ofNat_toNat])
    · exact .inr ⟨isSafe_eq_false hn, isSafe_ofNat himage⟩

theorem alike_lower (c : Char) (after : List Char) : List.Forall₂ Alike (lower c) (Text.lowerChar c after) := by
  have hrefl {d : Char} : Alike d d := .inl rfl
  by_cases hkelvin : c = '\u212a'
  · subst hkelvin
    exact .cons (.inl (by decide +kernel)) .nil
  by_cases hdotted : c = '\u0130'
  · subst hdotted
    exact .cons hrefl (.cons hrefl .nil)
  rw [lower, if_neg hkelvin, if_neg hdotted, Text.lowerChar, if_neg hdotted]
  split
  · next hsigma =>
    obtain rfl : c = 'Σ' := by simpa using (Bool.and_eq_true_iff.mp hsigma).1
    exact .cons (.inr ⟨by decide, by decide⟩) .nil
  · exact .cons (alike_toLower_shifted hkelvin) .nil

/-- What the whole mapping to lower case does beyond `lower` is lost with the characters that no name holds. -/
theorem dashRuns_flatMap_lower (h : Text.Lowered name low) : dashRuns inRun (name.flatMap lower) = dashRuns inRun low := by
  refine dashRuns_congr ?_
  induction h with
  | nil => exact .nil
  | cons c after _ ih =>
    rw [List.flatMap_cons]
    exact List.rel_append (alike_lower c after) ih

/-- The second text has one dash for each of the longest runs of characters in the first one that no name holds. -/
inductive Dashed : List Char → List Char → Prop where
  | nil : Dashed [] []
  | safe {c : Char} {cs ds : List Char} (hc : isSafe c = true) (rest : Dashed cs ds) : Dashed (c :: cs) (c :: ds)
  | run {r cs ds : List Char} (hne : r ≠ []) (hr : ∀ c ∈ r, isSafe c = false)
      (hlongest : ∀ c, cs.head? = some c → isSafe c = true) (rest : Dashed cs ds) : Dashed (r ++ cs) ('-' :: ds)

theorem dashRuns_true_append {r : List Char} (hr : ∀ c ∈ r, isSafe c = false)
    (hlongest : ∀ c, cs.head? = some c → isSafe c = true) : dashRuns true (r ++ cs) = dashRuns false cs := by
  induction r with
  | nil =>
    cases cs with
    | nil => rfl
    | cons c cs => rw [List.nil_append, dashRuns, dashRuns, if_pos (hlongest c rfl), if_pos (hlongest c rfl)]
  | cons c r ih =>
    rw [List.forall_mem_cons] at hr
    rw [List.cons_append, dashRuns, hr.1, if_neg Bool.false_ne_true, if_pos rfl, ih hr.2]

theorem Dashed.dashRuns_eq (h : Dashed cs ds) : dashRuns false cs = ds := by
  induction h with
  | nil => rfl
  | safe hc _ ih => rw [dashRuns, if_pos hc, ih]
  | @run r _ _ hne hr hlongest _ ih =>
    cases r with
    | nil => exact absurd rfl hne
    | cons c r =>
      rw [List.forall_mem_cons] at hr
      rw [List.cons_append, dashRuns, hr.1, if_neg Bool.false_ne_true, if_neg Bool.false_ne_true,
        dashRuns_true_append hr.2 hlongest, ih]

theorem dashed_dashRuns (cs : List Char) :
    Dashed cs (dashRuns false cs) ∧
      ∀ r : List Char, r ≠ [] → (∀ c ∈ r, isSafe c = false) → Dashed (r ++ cs) ('-' :: dashRuns true cs) := by
  -- by induction on what is still to come, with the part `r` of a run that has gone by
  induction cs with
  | nil => exact ⟨.nil, fun r hne hr => .run hne hr (by simp) .nil⟩
  | cons c cs ih =>
    by_cases hc : isSafe c = true
    · have hrest : Dashed (c :: cs) (c :: dashRuns false cs) := .safe hc ih.1
      have hlongest (d : Char) (hd : (c :: cs).head? = some d) : isSafe d = true := by
        obtain rfl : c = d := Option.some.inj hd
        exact hc
      rw [dashRuns, dashRuns, if_pos hc, if_pos hc]
      exact ⟨hrest, fun r hne hr => .run hne hr hlongest hrest⟩
    · rw [dashRuns, dashRuns, if_neg hc, if_neg hc, if_neg Bool.false_ne_true, if_pos rfl]
      rw [Bool.not_eq_true] at hc
      refine ⟨ih.2 [c] (List.cons_ne_nil c []) (by simpa using hc), fun r hne hr => ?_⟩
      -- the run goes on with `c`
      rw [List.append_cons]
      exact ih.2 (r ++ [c]) (by simp) (List.forall_mem_append.mpr ⟨hr, by simpa using hc⟩)

theorem dashed_iff : Dashed cs ds ↔ ds = dashRuns false cs :=
  ⟨fun h => h.dashRuns_eq.symm, fun h => h ▸ (dashed_dashRuns cs).1⟩

/-- The segment of a name by its stages: the name in lower case, a dash for each longest run of characters that no name
holds, no dashes at the ends, and `field` if nothing is left. -/
def Stages (name segment : List Char) : Prop :=
  ∃ low dashed, Text.Lowered name low ∧ Dashed low dashed ∧ segment = trimmed dashed

/-- Whichever form the sigmas take, the stages lead to the segment and to nothing else. -/
theorem stages_iff : Stages name ds ↔ ds = chars name := by
  constructor
  · rintro ⟨low, dashed, hlow, hdashed, rfl⟩
    rw [chars_eq, dashRuns_flatMap_lower hlow, dashed_iff.mp hdashed]
  · rintro rfl
    obtain ⟨low, hlow⟩ := Text.exists_lowered name
    exact ⟨low, _, hlow, dashed_iff.mpr rfl, by rw [chars_eq, dashRuns_flatMap_lower hlow]⟩

end Segment

end RecordGrammar
