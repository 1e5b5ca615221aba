import OnePage.Tree

/-!
# Numbering the nodes of a forest

The nodes of a forest are numbered from zero, each node before its subtrees and each tree before
the next. Entry `i` of the table of a forest describes node `i`.

Specification: section 9, nodes addressed by index.
-/

namespace OnePage

variable {α β : Type}

/-- What is known of a numbered node. -/
structure Entry (α : Type) where
  label : α
  /-- The number of the parent, if the node has one. -/
  parent : Option Nat
  /-- The numbers of the children, in order. -/
  children : List Nat

/-- The numbers of the roots of a forest whose first node has number `n`. -/
def Forest.numbers (n : Nat) : Forest α → List Nat
  | [] => []
  | t :: ts => n :: Forest.numbers (n + t.size) ts

mutual

/-- The entries of a tree whose root has number `n`. -/
def Tree.entries (parent : Option Nat) (n : Nat) : Tree α → List (Entry α)
  | .node a ts =>
    { label := a, parent, children := Forest.numbers (n + 1) ts } ::
      Forest.entries (some n) (n + 1) ts

/-- The entries of a forest whose first node has number `n`. -/
def Forest.entries (parent : Option Nat) (n : Nat) : Forest α → List (Entry α)
  | [] => []
  | t :: ts => Tree.entries parent n t ++ Forest.entries parent (n + t.size) ts

end

mutual

/-- There are as many entries as nodes. -/
theorem Tree.length_entries : ∀ (t : Tree α) (parent : Option Nat) (n : Nat),
    (t.entries parent n).length = t.size
  | .node _ ts, _, n => by
    rw [Tree.entries, List.length_cons, Forest.length_entries ts, Tree.size]

/-- There are as many entries as nodes. -/
theorem Forest.length_entries : ∀ (ts : Forest α) (parent : Option Nat) (n : Nat),
    (Forest.entries parent n ts).length = Forest.size ts
  | [], _, _ => rfl
  | t :: ts, parent, n => by
    rw [Forest.entries, List.length_append, Tree.length_entries t, Forest.length_entries ts,
      Forest.size]

end

/-- The roots of two forests side by side. -/
theorem Forest.numbers_append (n : Nat) (xs ys : Forest α) :
    Forest.numbers n (xs ++ ys) =
      Forest.numbers n xs ++ Forest.numbers (n + Forest.size xs) ys := by
  induction xs generalizing n with
  | nil => rfl
  | cons x xs ih => simp [Forest.numbers, Forest.size, ih, Nat.add_assoc]

/-- The entries of two forests side by side. -/
theorem Forest.entries_append (parent : Option Nat) (n : Nat) (xs ys : Forest α) :
    Forest.entries parent n (xs ++ ys) =
      Forest.entries parent n xs ++ Forest.entries parent (n + Forest.size xs) ys := by
  induction xs generalizing n with
  | nil => rfl
  | cons x xs ih => simp [Forest.entries, Forest.size, ih, Nat.add_assoc]

mutual

/-- A tree with new labels, made from the number of each node and its label. -/
def Tree.mapNumbered (f : Nat → α → β) (n : Nat) : Tree α → Tree β
  | .node a ts => .node (f n a) (Forest.mapNumbered f (n + 1) ts)

/-- A forest with new labels, made from the number of each node and its label. -/
def Forest.mapNumbered (f : Nat → α → β) (n : Nat) : Forest α → Forest β
  | [] => []
  | t :: ts => Tree.mapNumbered f n t :: Forest.mapNumbered f (n + t.size) ts

end

namespace Forest

/-- The table of all nodes. -/
def table (ts : Forest α) : List (Entry α) := Forest.entries none 0 ts

/-- The table of the nodes of the main tree. -/
def mainTable (ts : Forest α) : List (Entry α) := Forest.table (ts.take 1)

/-- The numbers of the nodes of the main tree. -/
def preorder (ts : Forest α) : List Nat := List.range (Forest.mainTable ts).length

/-- The numbers of the nodes of the main tree that have no children. -/
def leaves (ts : Forest α) : List Nat :=
  ((Forest.mainTable ts).zipIdx.filter (·.1.children.isEmpty)).map (·.2)

end Forest

end OnePage
