import OnePage.Node
import OnePage.Scope

/-!
# Resolved trees and their types

After analysis every identifier of a program knows the symbol it stands for. A leaf has the type of
what it shows; any other node needs children of one type and has that type itself, except that a
comparison is boolean.

Specification: section 4.3, type checks.
-/

namespace OnePage

/-- Why a program is not well formed. -/
inductive AnalysisError where
  /-- The name is declared twice in one block. -/
  | duplicateDeclaration (name : String) (position : Position) (firstLine : Nat)
  /-- The name is not declared where it is used. -/
  | unresolvedIdentifier (name : String) (position : Position)
  /-- Two types that should agree do not. -/
  | typeMismatch (expected found : VarType) (position : Position)
  /-- There is no tree to analyse. -/
  | emptyTree
  deriving DecidableEq

namespace AnalysisError

/-- The text that reports an error. -/
def message : AnalysisError → String
  | duplicateDeclaration name position firstLine =>
    "variable '" ++ name ++ "' at " ++ position.text ++ " was already declared on line " ++
      toString firstLine
  | unresolvedIdentifier name position =>
    "use of unresolved identifier '" ++ name ++ "' at " ++ position.text
  | typeMismatch expected found position =>
    "type mismatch at " ++ position.text ++ ": expected " ++ expected.text ++ ", found " ++
      found.text
  | emptyTree => "semantic analysis requires a concrete syntax tree with a root"

/-- The place an error cites. -/
def position? : AnalysisError → Option Position
  | duplicateDeclaration _ position _ | unresolvedIdentifier _ position
  | typeMismatch _ _ position => some position
  | emptyTree => none

end AnalysisError

/-- A node with the symbol it stands for, if it is an identifier that has one. -/
structure Resolved where
  node : Node
  symbol : Option SymbolId := none
  deriving DecidableEq

namespace Resolved

/-- The type of a node without children. -/
def leafType (table : ScopeTable) (r : Resolved) : VarType :=
  match r.node with
  | .branch _ => .none
  | .literal _ _ => .string
  | .leaf t =>
    match t.kind, r.symbol with
    | .digit, _ => .int
    | .boolVal, _ => .boolean
    | .identifier, some symbol => table.typeOf symbol
    | _, _ => .none

/-- The type of a node whose children have the given type. -/
def branchType (r : Resolved) (shared : VarType) : VarType :=
  match r.node with
  | .leaf t => if t.kind = .boolOp then .boolean else shared
  | .branch _ | .literal _ _ => shared

end Resolved

mutual

/-- The type of a tree. -/
def Tree.type (table : ScopeTable) : Tree Resolved → Except AnalysisError VarType
  | .node r [] => .ok (r.leafType table)
  | .node r (t :: ts) => do
    let shared ← Tree.type table t
    Forest.haveType table shared ts
    return r.branchType shared

/-- Check that all trees have the given type. -/
def Forest.haveType (table : ScopeTable) (expected : VarType) :
    Forest Resolved → Except AnalysisError Unit
  | [] => .ok ()
  | t :: ts => do
    let found ← Tree.type table t
    if found = expected then Forest.haveType table expected ts
    else throw (.typeMismatch expected found (t.label.node.position?.getD .nowhere))

end

/-- The outline of the main tree. -/
def Forest.renderResolved (ts : Forest Resolved) : String := Forest.render (·.node.text) ts

/-- The numbers of the nodes that stand for symbols, with those symbols. -/
def Forest.bindings (ts : Forest Resolved) : List (Nat × SymbolId) :=
  (Forest.labels ts).zipIdx.filterMap fun (r, i) ↦ r.symbol.map (i, ·)

end OnePage
