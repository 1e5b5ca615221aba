/-!
# Ordered trees

A tree has a label and an ordered list of subtrees; a forest is a list of trees, of which the first
is the main one. Functions on trees come in pairs, one for a tree and one for a forest.

Specification: section 3.
-/

namespace OnePage

/-- A tree with labels in `α`. -/
inductive Tree (α : Type) where
  | node (label : α) (children : List (Tree α))

/-- Trees in order. -/
abbrev Forest (α : Type) := List (Tree α)

variable {α β : Type}

namespace Tree

/-- The label at the root. -/
def label : Tree α → α
  | node a _ => a

/-- The subtrees of the root. -/
def children : Tree α → Forest α
  | node _ ts => ts

/-- A tree without subtrees. -/
def leaf (a : α) : Tree α := node a []

end Tree

mutual

/-- The number of nodes of a tree. -/
def Tree.size : Tree α → Nat
  | .node _ ts => Forest.size ts + 1

/-- The number of nodes of a forest. -/
def Forest.size : Forest α → Nat
  | [] => 0
  | t :: ts => Tree.size t + Forest.size ts

end

mutual

/-- The labels of a tree, each node before its subtrees. -/
def Tree.labels : Tree α → List α
  | .node a ts => a :: Forest.labels ts

/-- The labels of a forest, tree by tree. -/
def Forest.labels : Forest α → List α
  | [] => []
  | t :: ts => Tree.labels t ++ Forest.labels ts

end

mutual

/-- A tree and all its subtrees, each before those below it. -/
def Tree.subtrees : Tree α → List (Tree α)
  | .node a ts => .node a ts :: Forest.subtrees ts

/-- The trees of a forest with all their subtrees. -/
def Forest.subtrees : Forest α → List (Tree α)
  | [] => []
  | t :: ts => Tree.subtrees t ++ Forest.subtrees ts

end

/-- The nodes of two forests side by side. -/
theorem Forest.size_append (xs ys : Forest α) :
    Forest.size (xs ++ ys) = Forest.size xs + Forest.size ys := by
  induction xs with
  | nil => simp [Forest.size]
  | cons x xs ih => simp [Forest.size, ih, Nat.add_assoc]

/-- The labels of two forests side by side. -/
theorem Forest.labels_append (xs ys : Forest α) :
    Forest.labels (xs ++ ys) = Forest.labels xs ++ Forest.labels ys := by
  induction xs with
  | nil => simp [Forest.labels]
  | cons x xs ih => simp [Forest.labels, ih]

end OnePage
