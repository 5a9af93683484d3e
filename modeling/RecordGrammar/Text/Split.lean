/-!
# Splitting texts at a character
-/

namespace RecordGrammar.Text

/-- The pieces of a text between the occurrences of `sep`; always one more than there are of these. -/
def splitAtEach (sep : Char) : List Char → List (List Char)
  | [] => [[]]
  | c :: cs =>
    if c = sep then [] :: splitAtEach sep cs
    else match splitAtEach sep cs with
      | [] => [[c]]
      | piece :: pieces => (c :: piece) :: pieces

theorem splitAtEach_ne_nil (sep : Char) (s : List Char) : splitAtEach sep s ≠ [] := by
  cases s with
  | nil => simp [splitAtEach]
  | cons c cs =>
    simp only [splitAtEach]
    split
    · simp
    · split <;> simp

/-- The pieces of a text between the occurrences of `sep`. -/
def pieces (sep : Char) (s : String) : List String :=
  (splitAtEach sep s.toList).map String.ofList

/-- What stands before the first `sep`, and what stands behind it; nothing, if there is none. -/
def cutAtFirst (sep : Char) (s : String) : String × String :=
  (String.ofList (s.toList.takeWhile (· ≠ sep)), String.ofList ((s.toList.dropWhile (· ≠ sep)).drop 1))

/-- What stands behind the last `sep`; the whole text, if there is none. -/
def afterLast (sep : Char) (s : String) : String :=
  String.ofList (s.toList.reverse.takeWhile (· ≠ sep)).reverse

/-- What stands behind `start` in a text that starts with it. -/
def dropStart? (start : String) (s : String) : Option String :=
  if start.toList.isPrefixOf s.toList then some (String.ofList (s.toList.drop start.length)) else none

end RecordGrammar.Text
