import OnePage.Tree

/-!
# Building a forest node by node

A builder adds nodes one at a time under a cursor. The cursor is on a node that may still get
children; the nodes above it are open too, and all others are complete. A node added while there is
no cursor starts a new tree.

Specification: sections 3 and 9, the cursor of a tree under construction.
-/

namespace OnePage

variable {α : Type}

/-- A node that may still get children, with those it has. -/
structure OpenNode (α : Type) where
  label : α
  children : Forest α

/-- The tree of an open node as it is. -/
def OpenNode.close (n : OpenNode α) : Tree α := .node n.label n.children

/-- A forest under construction. -/
structure Builder (α : Type) where
  /-- The complete trees. -/
  complete : Forest α := []
  /-- The open nodes, from the cursor up to the root of its tree. -/
  spine : List (OpenNode α) := []

namespace Builder

/-- Add a tree below the innermost of the open nodes. -/
def attach (t : Tree α) (b : Builder α) : Builder α :=
  match b.spine with
  | [] => { b with complete := b.complete ++ [t] }
  | n :: above => { b with spine := { n with children := n.children ++ [t] } :: above }

/-- Add a node without moving the cursor. -/
def addLeaf (a : α) (b : Builder α) : Builder α := b.attach (.leaf a)

/-- Add a node and move the cursor onto it. -/
def addBranch (a : α) (b : Builder α) : Builder α :=
  { b with spine := { label := a, children := [] } :: b.spine }

/-- Move the cursor to its parent. -/
def climb (b : Builder α) : Builder α :=
  match b.spine with
  | [] => b
  | n :: above => attach n.close { b with spine := above }

/-- The trees under the open nodes given from the cursor upward, with `below` added to the
innermost of them. -/
def closeSpine (below : Forest α) : List (OpenNode α) → Forest α
  | [] => below
  | n :: above => closeSpine [.node n.label (n.children ++ below)] above

/-- The forest with every node added so far. -/
def forest (b : Builder α) : Forest α := b.complete ++ closeSpine [] b.spine

/-- The number of nodes added so far. -/
def size (b : Builder α) : Nat :=
  Forest.size b.complete + b.spine.foldr (fun n size ↦ Forest.size n.children + 1 + size) 0

/-- The number of the node under the cursor. -/
def cursor? (b : Builder α) : Option Nat :=
  b.spine.head?.map fun n ↦ b.size - 1 - Forest.size n.children

end Builder

end OnePage
