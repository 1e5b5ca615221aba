import OnePage.Analysis.Resolved
import OnePage.Proofs.Phrase

/-!
# Shapes

The shape of a resolved tree is what is left of it without symbols and places. Every phrase has a
shape of its own, read off the phrase alone: operators stand above their operands, the characters of
a text are one literal, and punctuation and grouping are gone.
-/

namespace OnePage

/-- A node at no place. -/
def Node.unplaced : Node → Node
  | branch p => branch p
  | leaf t => leaf { t with position := .nowhere }
  | literal text _ => literal text .nowhere

mutual

/-- The shape of a resolved tree. -/
def Tree.shape : Tree Resolved → Tree Node
  | .node r children => .node r.node.unplaced (Forest.shapes children)

/-- The shapes of resolved trees. -/
def Forest.shapes : Forest Resolved → Forest Node
  | [] => []
  | t :: ts => t.shape :: Forest.shapes ts

end

/-- The shapes of two forests are those of the first and then those of the second. -/
theorem Forest.shapes_append (ts us : Forest Resolved) :
    Forest.shapes (ts ++ us) = Forest.shapes ts ++ Forest.shapes us := by
  induction ts with
  | nil => rfl
  | cons t ts ih => rw [List.cons_append, Forest.shapes, Forest.shapes, ih, List.cons_append]

/-- The shape of a token that stays. -/
def Mark.shape (m : Mark) (kind : Kind) : Tree Node := .leaf (Node.unplaced (.leaf (m.token kind)))

mutual

/-- The shape of an expression. -/
def ExprPhrase.shape : ExprPhrase → Tree Node
  | .digit m => m.shape .digit
  | .sum m plus rest =>
    .node (Node.unplaced (.leaf (plus.token .intOp))) [m.shape .digit, rest.shape]
  | .text _ chars _ => .leaf (.literal (String.join (chars.map Mark.lexeme)) .nowhere)
  | .bool b => b.shape
  | .name m => m.shape .identifier

/-- The shape of a truth value or a comparison. -/
def BoolPhrase.shape : BoolPhrase → Tree Node
  | .value m => m.shape .boolVal
  | .compare _ left operator right _ =>
    .node (Node.unplaced (.leaf (operator.token .boolOp))) [left.shape, right.shape]

end

mutual

/-- The shape of a statement. -/
def StmtPhrase.shape : StmtPhrase → Tree Node
  | .print _ _ value _ => .node (.branch .printStatement) [value.shape]
  | .assign name _ value =>
    .node (.branch .assignmentStatement) [name.shape .identifier, value.shape]
  | .declare type name =>
    .node (.branch .varDecl) [type.shape .typeWord, name.shape .identifier]
  | .whileDo _ condition _ body _ => .node (.branch .whileStatement)
      [condition.shape, .node (.branch .block) (StmtPhrase.shapes body)]
  | .ifThen _ condition _ body _ => .node (.branch .ifStatement)
      [condition.shape, .node (.branch .block) (StmtPhrase.shapes body)]
  | .block _ body _ => .node (.branch .block) (StmtPhrase.shapes body)

/-- The shapes of statements. -/
def StmtPhrase.shapes : List StmtPhrase → Forest Node
  | [] => []
  | s :: ss => s.shape :: StmtPhrase.shapes ss

end

/-- The shape of a program. -/
def ProgramPhrase.shape (p : ProgramPhrase) : Tree Node :=
  .node (.branch .block) (StmtPhrase.shapes p.body)

end OnePage
