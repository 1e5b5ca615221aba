import OnePage.Derivation

/-!
# The grammar

The rules of the grammar, apart from any way of reading with them. A sequence of kinds is derivable
from a sequence of items if rules lead from one to the other. A forest of derivation trees shows how
some tokens are derived: the children of each node are a right-hand side of its nonterminal, and a
nonterminal that derives nothing leaves no node.
-/

namespace OnePage

/-- What stands on the right-hand side of a rule. -/
inductive Item where
  /-- Any token of a kind. -/
  | kind (kind : Kind)
  | part (production : Production)
  deriving DecidableEq

/-- The rules: the right-hand sides of each nonterminal. -/
inductive Rule : Production → List Item → Prop where
  | program : Rule .program [.part .block, .kind .eof]
  | block : Rule .block [.kind .braceOpen, .part .statementList, .kind .braceClose]
  | moreStatements : Rule .statementList [.part .statement, .part .statementList]
  | noStatement : Rule .statementList []
  | printing : Rule .statement [.part .printStatement]
  | assigning : Rule .statement [.part .assignmentStatement]
  | declaring : Rule .statement [.part .varDecl]
  | looping : Rule .statement [.part .whileStatement]
  | choosing : Rule .statement [.part .ifStatement]
  | nesting : Rule .statement [.part .block]
  | printStatement : Rule .printStatement
    [.kind .printWord, .kind .parenOpen, .part .expr, .kind .parenClose]
  | assignmentStatement : Rule .assignmentStatement [.part .name, .kind .assign, .part .expr]
  | varDecl : Rule .varDecl [.part .typeName, .part .name]
  | whileStatement : Rule .whileStatement [.kind .whileWord, .part .boolExpr, .part .block]
  | ifStatement : Rule .ifStatement [.kind .ifWord, .part .boolExpr, .part .block]
  | intExpr : Rule .expr [.part .intExpr]
  | stringExpr : Rule .expr [.part .stringExpr]
  | boolExpr : Rule .expr [.part .boolExpr]
  | naming : Rule .expr [.part .name]
  | oneDigit : Rule .intExpr [.part .digit]
  | sum : Rule .intExpr [.part .digit, .part .intOp, .part .expr]
  | text : Rule .stringExpr [.kind .quote, .part .charList, .kind .quote]
  | truth : Rule .boolExpr [.part .boolVal]
  | comparison : Rule .boolExpr
    [.kind .parenOpen, .part .expr, .part .boolOp, .part .expr, .kind .parenClose]
  /-- Any number of characters, also none. -/
  | characters (count : Nat) : Rule .charList (List.replicate count (.kind .char))
  | name : Rule .name [.kind .identifier]
  | typeName : Rule .typeName [.kind .typeWord]
  | digit : Rule .digit [.kind .digit]
  | boolOp : Rule .boolOp [.kind .boolOp]
  | boolVal : Rule .boolVal [.kind .boolVal]
  | intOp : Rule .intOp [.kind .intOp]

/-- The rules lead from the items to the kinds. -/
inductive Derives : List Item → List Kind → Prop where
  | nil : Derives [] []
  | kind {k : Kind} {items : List Item} {kinds : List Kind} :
    Derives items kinds → Derives (.kind k :: items) (k :: kinds)
  | part {p : Production} {rhs items : List Item} {inner kinds : List Kind} :
    Rule p rhs → Derives rhs inner → Derives items kinds →
      Derives (.part p :: items) (inner ++ kinds)

/-- The forest shows how the items derive the kinds of the tokens. -/
inductive DerivationForest : List Item → Forest Node → List Token → Prop where
  | nil : DerivationForest [] [] []
  | token {t : Token} {items : List Item} {trees : Forest Node} {tokens : List Token} :
    DerivationForest items trees tokens →
      DerivationForest (.kind t.kind :: items) (.leaf (.leaf t) :: trees) (t :: tokens)
  | branch {p : Production} {rhs items : List Item} {children trees : Forest Node}
    {inner tokens : List Token} : Rule p rhs → rhs ≠ [] → DerivationForest rhs children inner →
      DerivationForest items trees tokens →
        DerivationForest (.part p :: items) (.node (.branch p) children :: trees)
          (inner ++ tokens)
  | empty {p : Production} {items : List Item} {trees : Forest Node} {tokens : List Token} :
    Rule p [] → DerivationForest items trees tokens →
      DerivationForest (.part p :: items) trees tokens

namespace DerivationForest

variable {items : List Item} {trees : Forest Node} {tokens : List Token}

/-- What a forest shows to be derived is derivable. -/
theorem derives (h : DerivationForest items trees tokens) :
    Derives items (tokens.map Token.kind) := by
  induction h with
  | nil => exact .nil
  | token _ ih => exact .kind ih
  | branch rule _ _ _ ihc ih =>
    rw [List.map_append]
    exact .part rule ihc ih
  | empty rule _ ih => exact .part rule .nil ih

/-- The tokens of a derivation are the leaves of its forest, in order. -/
theorem leaves (h : DerivationForest items trees tokens) :
    (Forest.labels trees).filterMap Node.token? = tokens := by
  induction h with
  | nil => rfl
  | token _ ih => simp [Forest.labels, Tree.leaf, Tree.labels, Node.token?, ih]
  | branch _ _ _ _ ihc ih =>
    simp [Forest.labels, Tree.labels, Node.token?, List.filterMap_cons, ihc, ih]
  | empty _ _ ih => exact ih

/-- Derivations follow each other. -/
theorem append {more : List Item} {others : Forest Node} {rest : List Token}
    (h : DerivationForest items trees tokens) (k : DerivationForest more others rest) :
    DerivationForest (items ++ more) (trees ++ others) (tokens ++ rest) := by
  induction h with
  | nil => exact k
  | token _ ih => exact .token ih
  | branch rule hne hc _ _ ih =>
    rw [List.append_assoc]
    exact .branch rule hne hc ih
  | empty rule _ ih => exact .empty rule ih

/-- A kind is shown to derive a token of that kind. -/
theorem kind_cons {kind : Kind} (h : DerivationForest (.kind kind :: items) trees tokens) :
    ∃ t others rest, t.kind = kind ∧ trees = .leaf (.leaf t) :: others ∧
      DerivationForest items others rest := by
  generalize hitems : Item.kind kind :: items = all at h
  cases h with
  | nil | branch | empty => cases hitems
  | token h =>
    cases hitems
    exact ⟨_, _, _, rfl, rfl, h⟩

/-- A nonterminal has a node if it always derives something. -/
theorem part_cons {p : Production} (h : DerivationForest (.part p :: items) trees tokens)
    (hp : ¬Rule p []) : ∃ children others rest, trees = .node (.branch p) children :: others ∧
      DerivationForest items others rest := by
  cases h with
  | branch _ _ _ h => exact ⟨_, _, _, rfl, h⟩
  | empty rule _ => exact absurd rule hp

end DerivationForest

end OnePage
