/-!
# Cycle search

A depth-first search for a cycle in a finite directed graph. The graph is given by the successors of
each vertex, whose computation may fail, and by a list that holds every vertex the search can reach.
A vertex is entered when it is taken off that list, so the search ends: each step either shortens the
list or uses up one of the successors still to be followed.
-/

namespace RecordGrammar.Cycle

variable {α ε : Type} [DecidableEq α]

/-- The number of steps that the vertices on the path can still take. -/
def pending : List (α × List α) → Nat
  | [] => 0
  | (_, next) :: path => next.length + 1 + pending path

/-- The path from an entered vertex to the last one, and that vertex again. -/
def close (v : α) (path : List (α × List α)) : List α :=
  ((path.map (·.1)).reverse.dropWhile (· ≠ v)) ++ [v]

/-- Continues the search. `fresh` holds the vertices not entered yet, and `path` those entered and not
left, the last one first, each with the successors it has still to follow. -/
def search (successors : α → Except ε (List α)) (fresh : List α) (path : List (α × List α)) :
    Except ε (Option (List α)) :=
  match path with
  | [] => .ok none
  | (_, []) :: before => search successors fresh before
  | (v, w :: next) :: before =>
    if w ∈ ((v, next) :: before).map (·.1) then .ok (some (close w ((v, next) :: before)))
    else if w ∈ fresh then
      match successors w with
      | .error e => .error e
      | .ok after => search successors (fresh.erase w) ((w, after) :: (v, next) :: before)
    else search successors fresh ((v, next) :: before)
termination_by (fresh.length, pending path)
decreasing_by
  · exact Prod.Lex.right _ (by simp only [pending]; omega)
  · rename_i h
    have := List.length_erase_of_mem h
    have := List.length_pos_of_mem h
    exact Prod.Lex.left _ _ (by omega)
  · exact Prod.Lex.right _ (by simp only [pending, List.length_cons]; omega)

/-- The first cycle that a depth-first search from `root` meets, as the vertices on it with the first
one repeated at the end. -/
def find (vertices : List α) (successors : α → Except ε (List α)) (root : α) : Except ε (Option (List α)) := do
  search successors (vertices.eraseDups.erase root) [(root, ← successors root)]

/-- The wording for a cycle of references or models. -/
def message (names : List String) : String :=
  "Cyclic reference detected: " ++ " -> ".intercalate names

end RecordGrammar.Cycle
