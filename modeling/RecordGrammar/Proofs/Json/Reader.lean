import RecordGrammar.Json.Reader

/-!
# What is read from a JSON text

Characters that need no escape are read as they stand (`readText_plain`). A document with one field is read as its key and its
value are.
-/

namespace RecordGrammar.Json

open Text

variable {half : Nat → Char} {text : String}

theorem readText_plain (cs r : List Char) (h : ∀ c ∈ cs, c ≠ '"' ∧ c ≠ '\\' ∧ 0x20 ≤ c.toNat) :
    readText half (cs ++ '"' :: r) = some (cs, ⟨r, by simp only [List.length_append, List.length_cons]; omega⟩) := by
  induction cs with
  | nil => simp [readText, Rest.tail]
  | cons c cs ih =>
    obtain ⟨hq, hb, hc⟩ := h c (List.mem_cons_self ..)
    have hr := ih fun d hd => h d (List.mem_cons_of_mem _ hd)
    show readText half (c :: (cs ++ '"' :: r)) = _
    rw [readText, if_neg (Nat.not_lt.mpr hc), hr]
    · rfl
    · exact hq
    · exact hb

theorem ofText?_of_readValue {s : List Char} {v : Json} {rest : Rest s} (hs : (skipGap text.toList).val = s)
    (hv : readValue half s = some (v, rest)) (hr : (skipGap rest.val).val = []) : ofText? half text = some v := by
  subst hs
  unfold ofText?
  rw [hv]
  simp [hr]

theorem ofText?_oneField (key written : List Char) {value : List Char}
    (ht : text.toList = '\x7b' :: '"' :: (key ++ '"' :: ':' :: ' ' :: '"' :: (written ++ ['"', '\x7d'])))
    (hk : ∀ c ∈ key, c ≠ '"' ∧ c ≠ '\\' ∧ 0x20 ≤ c.toNat)
    (hv : ∀ r, readText half (written ++ '"' :: r) =
      some (value, ⟨r, by simp only [List.length_append, List.length_cons]; omega⟩)) :
    ofText? half text = some (.obj [(String.ofList key, .str (String.ofList value))]) := by
  have hf : readFields half [] ('"' :: (key ++ '"' :: ':' :: ' ' :: '"' :: (written ++ ['"', '\x7d']))) =
      some ([(String.ofList key, .str (String.ofList value))], ⟨[], by simp⟩) := by
    rw [readFields]
    simp [readMark, skipGap, readWhile, isGap, RestOrAll.all, RestOrAll.behind, Rest.orAll, Rest.cons, readText_plain _ _ hk,
      readValue, hv, Fields.set]
  have hd : readValue half ('\x7b' :: '"' :: (key ++ '"' :: ':' :: ' ' :: '"' :: (written ++ ['"', '\x7d']))) =
      some (.obj [(String.ofList key, .str (String.ofList value))], ⟨[], by simp⟩) := by
    simp [readValue, readMark, skipGap, readWhile, isGap, RestOrAll.all, hf, Rest.cons]
  refine ofText?_of_readValue ?_ hd rfl
  rw [ht]
  rfl

end RecordGrammar.Json
