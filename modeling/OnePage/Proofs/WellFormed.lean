import OnePage.Proofs.Phrase
import OnePage.Scope

/-!
# Well-formed programs

Programs without places and punctuation, and the rules that a well-formed one keeps: no name is
declared twice in one block, a name is declared before it is used in the same block or in one around
it, and what is added, compared or assigned agrees in type. Every phrase stands for such a program.
-/

namespace OnePage

mutual

/-- An expression without places. -/
inductive Term where
  | digit (numeral : String)
  | sum (numeral : String) (rest : Term)
  | text (value : String)
  | test (condition : Condition)
  | name (name : String)

/-- A truth value or a comparison without places. -/
inductive Condition where
  | flag (value : Bool)
  | compare (left : Term) (equal : Bool) (right : Term)

end

/-- A statement without places. -/
inductive Command where
  | print (value : Term)
  | assign (name : String) (value : Term)
  | declare (type : VarType) (name : String)
  | whileDo (condition : Condition) (body : List Command)
  | ifThen (condition : Condition) (body : List Command)
  | block (body : List Command)

/-! ### What phrases stand for -/

mutual

/-- The expression that a phrase stands for. -/
def ExprPhrase.term : ExprPhrase → Term
  | .digit m => .digit m.lexeme
  | .sum m _ rest => .sum m.lexeme rest.term
  | .text _ chars _ => .text (String.join (chars.map Mark.lexeme))
  | .bool b => .test b.condition
  | .name m => .name m.lexeme

/-- The truth value or comparison that a phrase stands for. -/
def BoolPhrase.condition : BoolPhrase → Condition
  | .value m => .flag (m.lexeme = "true")
  | .compare _ left operator right _ => .compare left.term (operator.lexeme = "==") right.term

end

mutual

/-- The statement that a phrase stands for. -/
def StmtPhrase.command : StmtPhrase → Command
  | .print _ _ value _ => .print value.term
  | .assign name _ value => .assign name.lexeme value.term
  | .declare type name => .declare (.ofKeyword type.lexeme) name.lexeme
  | .whileDo _ condition _ body _ => .whileDo condition.condition (StmtPhrase.commands body)
  | .ifThen _ condition _ body _ => .ifThen condition.condition (StmtPhrase.commands body)
  | .block _ body _ => .block (StmtPhrase.commands body)

/-- The statements that phrases stand for. -/
def StmtPhrase.commands : List StmtPhrase → List Command
  | [] => []
  | s :: ss => s.command :: StmtPhrase.commands ss

end

/-! ### The rules -/

/-- The variables declared so far in a block. -/
abbrev Block := List (String × VarType)

/-- The type of a name in the first of some blocks that declares it. -/
def Block.type? (blocks : List Block) (name : String) : Option VarType :=
  blocks.findSome? (·.lookup name)

mutual

/-- The expression has the type inside some blocks, the innermost of which is the first. -/
inductive Term.HasType (blocks : List Block) : Term → VarType → Prop where
  | digit {numeral : String} : Term.HasType blocks (.digit numeral) .int
  | sum {numeral : String} {rest : Term} : Term.HasType blocks rest .int →
      Term.HasType blocks (.sum numeral rest) .int
  | text {value : String} : Term.HasType blocks (.text value) .string
  | test {condition : Condition} : Condition.WellTyped blocks condition →
      Term.HasType blocks (.test condition) .boolean
  | name {name : String} {type : VarType} : Block.type? blocks name = some type →
      Term.HasType blocks (.name name) type

/-- Both sides of every comparison have one type. -/
inductive Condition.WellTyped (blocks : List Block) : Condition → Prop where
  | flag {value : Bool} : Condition.WellTyped blocks (.flag value)
  | compare {left right : Term} {equal : Bool} {type : VarType} : Term.HasType blocks left type →
      Term.HasType blocks right type → Condition.WellTyped blocks (.compare left equal right)

end

mutual

/-- The statement is well formed inside some outer blocks and a block with some variables, which
has others after it. -/
inductive Command.WellFormed : List Block → Block → Command → Block → Prop where
  | print {outer : List Block} {block : Block} {value : Term} {type : VarType} :
      value.HasType (block :: outer) type →
      Command.WellFormed outer block (.print value) block
  | assign {outer : List Block} {block : Block} {name : String} {value : Term} {type : VarType} :
      Block.type? (block :: outer) name = some type → value.HasType (block :: outer) type →
      Command.WellFormed outer block (.assign name value) block
  | declare {outer : List Block} {block : Block} {type : VarType} {name : String} :
      block.lookup name = none →
      Command.WellFormed outer block (.declare type name) ((name, type) :: block)
  | whileDo {outer : List Block} {block inner : Block} {condition : Condition}
      {body : List Command} :
      condition.WellTyped (block :: outer) → Commands.WellFormed (block :: outer) [] body inner →
      Command.WellFormed outer block (.whileDo condition body) block
  | ifThen {outer : List Block} {block inner : Block} {condition : Condition}
      {body : List Command} :
      condition.WellTyped (block :: outer) → Commands.WellFormed (block :: outer) [] body inner →
      Command.WellFormed outer block (.ifThen condition body) block
  | block {outer : List Block} {block inner : Block} {body : List Command} :
      Commands.WellFormed (block :: outer) [] body inner →
      Command.WellFormed outer block (.block body) block

/-- The statements are well formed one after the other. -/
inductive Commands.WellFormed : List Block → Block → List Command → Block → Prop where
  | nil {outer : List Block} {block : Block} : Commands.WellFormed outer block [] block
  | cons {outer : List Block} {block mid later : Block} {c : Command} {cs : List Command} :
      Command.WellFormed outer block c mid → Commands.WellFormed outer mid cs later →
      Commands.WellFormed outer block (c :: cs) later

end

/-- The statements are those of a well-formed program. -/
def WellFormedProgram (statements : List Command) : Prop :=
  ∃ later, Commands.WellFormed [] [] statements later

end OnePage
