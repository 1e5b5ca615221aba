/-!
# Names in order

A table from names to the numbers of what they stand for, kept in the order of the names. Names are
ordered by their code points.

Specification: section 3, scopes.
-/

namespace OnePage

/-- Names with the numbers they stand for, in ascending order of the names. -/
abbrev Names := List (String × Nat)

namespace Names

/-- Let a name stand for a number, whatever it stood for before. -/
def insert (name : String) (value : Nat) : Names → Names
  | [] => [(name, value)]
  | (n, v) :: rest =>
    if name = n then (name, value) :: rest
    else if name < n then (name, value) :: (n, v) :: rest
    else (n, v) :: insert name value rest

/-- What a name stands for. -/
def find? (name : String) : Names → Option Nat
  | [] => none
  | (n, v) :: rest => if name = n then some v else find? name rest

/-- A name just inserted stands for its number. -/
theorem find?_insert_self (name : String) (value : Nat) (names : Names) :
    find? name (insert name value names) = some value := by
  induction names with
  | nil => simp [insert, find?]
  | cons entry rest ih =>
    unfold insert
    split
    · simp [find?]
    · split
      · simp [find?]
      · next hne _ => simp [find?, hne, ih]

/-- Inserting a name changes what no other name stands for. -/
theorem find?_insert_of_ne {name other : String} (value : Nat) (names : Names)
    (h : other ≠ name) : find? other (insert name value names) = find? other names := by
  induction names with
  | nil => simp [insert, find?, h]
  | cons entry rest ih =>
    unfold insert
    split
    · next heq => subst heq; simp [find?, h]
    · split
      · simp [find?, h]
      · simp [find?, ih]

end Names

end OnePage
