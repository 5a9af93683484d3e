import RecordGrammar.Text.Blank
import RecordGrammar.Text.Width

/-!
# Wrapping lines

A row that is wider than a terminal is broken before words; a word that is wider still is broken
wherever it has to be. `flatten_wrap` says that no character is lost.
-/

namespace RecordGrammar.Text

/-- Splits off a word: the blanks before it, its characters, and the blanks behind it. -/
def splitWord (s : List Char) : List Char × List Char :=
  let body := s.dropWhile isBlank
  let behind := body.dropWhile (!isBlank ·)
  (s.takeWhile isBlank ++ body.takeWhile (!isBlank ·) ++ behind.takeWhile isBlank, behind.dropWhile isBlank)

theorem splitWord_append (s : List Char) : (splitWord s).1 ++ (splitWord s).2 = s := by
  simp [splitWord, List.takeWhile_append_dropWhile]

/-- A row in words, each with the blanks behind it. Blanks before the first word belong to it. -/
def words (s : List Char) : List (List Char) :=
  if s = [] then []
  else if (splitWord s).1 = [] then [s]
  else (splitWord s).1 :: words (splitWord s).2
termination_by s.length
decreasing_by
  rename_i h
  have := congrArg List.length (splitWord_append s)
  have := List.length_pos_iff.mpr h
  simp only [List.length_append] at *
  omega

theorem flatten_words (s : List Char) : (words s).flatten = s := by
  fun_induction words s with
  | case1 => rfl
  | case2 => simp
  | case3 s _ _ ih => rw [List.flatten_cons, ih, splitWord_append]

/-- Cuts a row into pieces that fit; `piece` is the one being filled. -/
def chopFrom (columns : Nat) (piece : List Char) : List Char → List (List Char)
  | [] => [piece]
  | c :: cs =>
    if columns < width piece + charWidth c then piece :: chopFrom columns [c] cs
    else chopFrom columns (piece ++ [c]) cs

theorem flatten_chopFrom (columns : Nat) (piece s : List Char) :
    (chopFrom columns piece s).flatten = piece ++ s := by
  induction s generalizing piece with
  | nil => simp [chopFrom]
  | cons c cs ih =>
    simp only [chopFrom]
    split <;> simp [ih]

theorem chopFrom_ne_nil (columns : Nat) (piece s : List Char) : chopFrom columns piece s ≠ [] := by
  induction s generalizing piece with
  | nil => simp [chopFrom]
  | cons c cs ih =>
    simp only [chopFrom]
    split <;> simp [ih]

/-- Fills lines with words; `line` is the one being filled. -/
def fill (columns : Nat) (line : List Char) : List (List Char) → List (List Char)
  | [] => [line]
  | w :: ws =>
    let needed := width (dropEndWhile isBlank w)
    if width line + needed ≤ columns then fill columns (line ++ w) ws
    else if columns < needed then
      let pieces := chopFrom columns [] w
      (if line = [] then [] else [line]) ++ pieces.dropLast ++ fill columns (pieces.getLastD []) ws
    else line :: fill columns w ws

theorem flatten_fill (columns : Nat) (line : List Char) (ws : List (List Char)) :
    (fill columns line ws).flatten = line ++ ws.flatten := by
  induction ws generalizing line with
  | nil => simp [fill]
  | cons w ws ih =>
    simp only [fill]
    split
    · simp [ih]
    · split
      · have hp := chopFrom_ne_nil columns [] w
        have hw := flatten_chopFrom columns [] w
        generalize chopFrom columns [] w = pieces at hp hw
        have hd : pieces.dropLast ++ [pieces.getLastD []] = pieces := by
          rw [List.getLastD_eq_getLast?, List.getLast?_eq_some_getLast hp, Option.getD_some,
            List.dropLast_concat_getLast]
        have hline : (if line = [] then [] else [line]).flatten = line := by split <;> simp_all
        have hflat : pieces.dropLast.flatten ++ pieces.getLastD [] = w := by
          rw [← List.nil_append w, ← hw]
          conv => rhs; rw [← hd]
          simp
        simp [ih, hline, ← hflat]
      · simp [ih]

/-- The lines that a row takes on a terminal of the given width. -/
def wrap (columns : Nat) (s : List Char) : List (List Char) := fill columns [] (words s)

/-- Wrapping loses no character. -/
theorem flatten_wrap (columns : Nat) (s : List Char) : (wrap columns s).flatten = s := by
  simp [wrap, flatten_fill, flatten_words]

end RecordGrammar.Text
