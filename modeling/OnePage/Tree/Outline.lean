import OnePage.Tree

/-!
# Outlines

An outline shows a tree with one line for each node, each node before its subtrees. A line starts
with as many dashes as the node is deep, and its label stands in angle brackets if the node has
subtrees and in square brackets if not.

Specification: section C, dumps of trees.
-/

namespace OnePage

variable {α : Type}

namespace Outline

/-- The line of a node. -/
def line (depth : Nat) (label : String) (isLeaf : Bool) : String :=
  String.ofList (List.replicate depth '-') ++
    if isLeaf then "[" ++ label ++ "]" else "<" ++ label ++ ">"

end Outline

mutual

/-- The lines of a tree at a depth. -/
def Tree.outline (label : α → String) (depth : Nat) : Tree α → List String
  | .node a ts =>
    Outline.line depth (label a) ts.isEmpty :: Forest.outline label (depth + 1) ts

/-- The lines of a forest at a depth. -/
def Forest.outline (label : α → String) (depth : Nat) : Forest α → List String
  | [] => []
  | t :: ts => Tree.outline label depth t ++ Forest.outline label depth ts

end

/-- The outline of the main tree as text, each line ended. -/
def Forest.render (label : α → String) (ts : Forest α) : String :=
  String.join ((Forest.outline label 0 (ts.take 1)).map (· ++ "\n"))

end OnePage
