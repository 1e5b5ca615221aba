/-!
# Paths

A path is text with slashes between the names of directories. Slashes in a row count as one, and a
dot after a slash stands for nothing.
-/

namespace OnePage.Path

/-- The reversed characters of a path without slashes and dots that add nothing at its end. -/
def trimmed : List Char → List Char
  | '/' :: rest => trimmed rest
  | '.' :: '/' :: rest => trimmed rest
  | rest => rest

/-- The path of the directory that holds what a path names; empty for a path of one name. The root
and the empty path are in no directory. -/
def parent? (path : String) : Option String :=
  let isAbsolute := path.toList.head? = some '/'
  match trimmed path.toList.reverse with
  | [] => none
  | last =>
    match trimmed (last.dropWhile (· ≠ '/')) with
    | [] => some (if isAbsolute then "/" else "")
    | above => some (String.ofList above.reverse)

/-- The parts of a path between slashes, empty ones included. -/
def parts (path : String) : List String :=
  let step (c : Char) (done : List (List Char)) : List (List Char) :=
    match c, done with
    | '/', _ => [] :: done
    | _, [] => [[c]]
    | _, name :: others => (c :: name) :: others
  (path.toList.foldr step [[]]).map String.ofList

end OnePage.Path
