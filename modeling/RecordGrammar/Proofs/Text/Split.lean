import RecordGrammar.Text.Split

/-!
# Taking joined texts apart

The pieces of texts joined by the separator are those of the texts, and a text put behind another one is found there
again.
-/

namespace RecordGrammar.Text
variable {sep : Char}

theorem splitAtEach_of_not_mem {cs : List Char} (h : sep ∉ cs) : splitAtEach sep cs = [cs] := by
  induction cs with
  | nil => rfl
  | cons c cs ih =>
    rw [List.mem_cons, not_or] at h
    rw [splitAtEach, if_neg (Ne.symm h.1), ih h.2]

/-- A separator in a text parts its pieces. -/
theorem splitAtEach_append (cs rest : List Char) :
    splitAtEach sep (cs ++ sep :: rest) = splitAtEach sep cs ++ splitAtEach sep rest := by
  induction cs with
  | nil => simp [splitAtEach]
  | cons c cs ih =>
    rw [List.cons_append, splitAtEach, splitAtEach]
    by_cases hc : c = sep
    · rw [if_pos hc, if_pos hc, ih, List.cons_append]
    · rw [if_neg hc, if_neg hc, ih]
      cases hpieces : splitAtEach sep cs with
      | nil => exact absurd hpieces (splitAtEach_ne_nil sep cs)
      | cons piece pieces => rfl

theorem pieces_of_not_mem {s : String} (h : sep ∉ s.toList) : pieces sep s = [s] := by
  rw [pieces, splitAtEach_of_not_mem h, List.map_singleton, String.ofList_toList]

/-- The pieces of joined texts are those of each of them in turn. -/
theorem pieces_intercalate {texts : List String} (hne : texts ≠ []) :
    pieces sep ((String.singleton sep).intercalate texts) = texts.flatMap (pieces sep) := by
  induction texts with
  | nil => exact absurd rfl hne
  | cons s texts ih =>
    cases texts with
    | nil => rw [String.intercalate_singleton, List.flatMap_singleton]
    | cons s' texts =>
      rw [List.flatMap_cons, ← ih (List.cons_ne_nil s' texts), String.intercalate_cons_cons, pieces, String.toList_append,
        String.toList_append, String.toList_singleton, List.append_assoc, List.singleton_append, splitAtEach_append,
        List.map_append]
      rfl

theorem not_mem_of_mem_splitAtEach {cs piece : List Char} (h : piece ∈ splitAtEach sep cs) : sep ∉ piece := by
  induction cs generalizing piece with
  | nil => simp_all [splitAtEach]
  | cons c cs ih =>
    rw [splitAtEach] at h
    split at h
    · rcases List.mem_cons.mp h with rfl | h
      · exact List.not_mem_nil
      · exact ih h
    · rename_i hc
      cases hpieces : splitAtEach sep cs with
      | nil => exact absurd hpieces (splitAtEach_ne_nil sep cs)
      | cons first pieces =>
        simp only [hpieces] at h ih
        rcases List.mem_cons.mp h with rfl | h
        · rw [List.mem_cons, not_or]
          exact ⟨Ne.symm hc, ih List.mem_cons_self⟩
        · exact ih (List.mem_cons_of_mem _ h)

theorem not_mem_of_mem_pieces {s piece : String} (h : piece ∈ pieces sep s) : sep ∉ piece.toList := by
  obtain ⟨cs, hcs, rfl⟩ := List.mem_map.mp h
  rw [String.toList_ofList]
  exact not_mem_of_mem_splitAtEach hcs

/-- Joined texts come apart where they were joined, and only there, if none of them has the separator in it. -/
theorem pieces_intercalate_eq_iff {texts : List String} (hne : texts ≠ []) :
    pieces sep ((String.singleton sep).intercalate texts) = texts ↔ ∀ s ∈ texts, sep ∉ s.toList := by
  refine ⟨fun h s hs => not_mem_of_mem_pieces (h ▸ hs), fun h => ?_⟩
  rw [pieces_intercalate hne, List.flatMap_def, List.map_congr_left fun s hs => pieces_of_not_mem (h s hs), ← List.flatMap_def,
    List.flatMap_singleton']

theorem mem_intercalate {c : Char} {between : String} (hc : c ∉ between.toList) {texts : List String} :
    c ∈ (between.intercalate texts).toList ↔ ∃ s ∈ texts, c ∈ s.toList := by
  induction texts with
  | nil => simp
  | cons s texts ih =>
    cases texts with
    | nil => simp
    | cons s' texts =>
      rw [String.intercalate_cons_cons, String.toList_append, String.toList_append, List.mem_append, List.mem_append, ih]
      simp [hc]

theorem dropStart?_append (start : String) (rest : List Char) :
    dropStart? start (String.ofList (start.toList ++ rest)) = some (String.ofList rest) := by
  rw [dropStart?, String.toList_ofList, if_pos (List.isPrefixOf_iff_prefix.mpr (List.prefix_append _ _)),
    ← String.length_toList, List.drop_left]

end RecordGrammar.Text
