import OnePage.Analysis.Resolved
import OnePage.Event

/-!
# Analysis

The concrete tree of a program is lowered to a resolved tree. Punctuation and nonterminals that only
group others are dropped. A block opens a scope for just as long as it lasts, a declaration adds a
symbol to it, and a name is looked up from it outward. The characters of a text are put together,
and an operator takes the place of the node above its operands. Operators, assignments and print
statements are checked for types. The first error ends the analysis.

Lowering is defined on every tree of nodes, whatever its shape.

Specification: sections 4.3 and 7.
-/

namespace OnePage

/-- A program whose names are resolved. -/
structure Analysis where
  tree : Forest Resolved
  table : ScopeTable

namespace Analysis

/-- What an analysis has found and said so far. -/
structure Progress where
  table : ScopeTable
  events : Array Event

/-- A step of an analysis. -/
abbrev Step := EStateM AnalysisError Progress

/-- Say something. -/
def say (severity : Severity) (profile : Profile) (text : String) : Step Unit :=
  modify fun s ↦
    { s with events := s.events.push { phase := .semantic, severity, profile, text } }

/-- Change the table of scopes and return what the change gives. -/
def onTable {α : Type} (change : ScopeTable → α × ScopeTable) : Step α :=
  modifyGet fun s ↦
    let (a, table) := change s.table
    (a, { s with table })

/-- The table of scopes as it is. -/
def tableNow : Step ScopeTable := return (← get).table

/-- Make a node over the children that a step gives. -/
def branch (node : Node) (children : Step (Forest Resolved)) : Step (Tree Resolved) := do
  say .found .everything ("creating branch node '" ++ node.text ++ "'")
  return .node { node } (← children)

/-- Check the types in a tree. -/
def check (t : Tree Resolved) : Step Unit := do
  match t.type (← tableNow) with
  | .ok type => say .found .verbose ("type checks out, result is '" ++ type.text ++ "'")
  | .error e => throw e

/-- The token of the last child with the given nonterminal, if that child has one. -/
def lastTerminal? (production : Production) (children : Forest Node) : Option Token :=
  ((children.filter (·.label == .branch production)).getLast?).bind Tree.terminal?

/-- The children of a declaration: its type and its name, which is declared by it. -/
def declaration (scope : ScopeId) (children : Forest Node) : Step (Forest Resolved) := do
  match lastTerminal? .typeName children, lastTerminal? .name children with
  | some type, some name =>
    let known ← tableNow
    match known.lookupLocal? scope name.lexeme with
    | some existing =>
      let line := (known.symbols[existing]?.map (·.token.position.line)).getD 0
      throw (.duplicateDeclaration name.lexeme name.position line)
    | none =>
      say .message .verbose
        ("adding symbol '" ++ type.lexeme ++ " " ++ name.lexeme ++ "' to the symbol table")
      let symbol ← onTable (·.declare scope (.ofKeyword type.lexeme) name)
      return [.leaf { node := .leaf type }, .leaf { node := .leaf name, symbol := some symbol }]
  | _, _ => return []

/-- An identifier, as the target of an assignment or as a value. -/
def identifier (scope : ScopeId) (isTarget : Bool) (name : Token) : Step (Tree Resolved) := do
  match (← tableNow).lookup? scope name.lexeme with
  | none => throw (.unresolvedIdentifier name.lexeme name.position)
  | some symbol =>
    onTable fun t ↦ ((), if isTarget then t.markInitialized symbol else t.markUsed symbol)
    return .leaf { node := .leaf name, symbol := some symbol }

/-- The text of the characters among some nodes, at the place of the first quote. -/
def textOf (nodes : List Node) : String × Position :=
  let tokens := nodes.filterMap Node.token?
  (String.join ((tokens.filter (·.kind == .char)).map (·.lexeme)),
    ((tokens.find? (·.kind == .quote)).map (·.position)).getD .nowhere)

/-- The operator among the children of an expression. -/
def operator? (children : Forest Node) : Option Token :=
  children.findSome? fun t ↦
    if t.label = .branch .intOp ∨ t.label = .branch .boolOp then t.terminal? else none

mutual

/-- Lower a tree that stands below a node of the given nonterminal. -/
def lower (scope : ScopeId) (parent : Option Production) :
    Tree Node → Step (Forest Resolved)
  | .node (.leaf _) _ | .node (.literal _ _) _ => return []
  | .node (.branch p) children =>
    match p with
    | .block => do
      let inner ← onTable (·.adopt scope)
      return [← branch (.branch p) (lowerAll inner p children)]
    | .varDecl => return [← branch (.branch p) (declaration scope children)]
    | .assignmentStatement | .printStatement => do
      let t ← branch (.branch p) (lowerAll scope p children)
      check t
      return [t]
    | .ifStatement | .whileStatement =>
      return [← branch (.branch p) (lowerAll scope p children)]
    | .stringExpr => do
      let (text, position) := textOf (Forest.labels children)
      say .message .verbose ("collapsing characters to form string \"" ++ text ++ "\"")
      return [.leaf { node := .literal text position }]
    | .intExpr | .boolExpr =>
      match operator? children with
      | some operator => do
        say .message .verbose
          ("found operator '" ++ operator.lexeme ++ "', rotating it into a branch")
        let t ← branch (.leaf operator) (lowerAll scope p children)
        check t
        return [t]
      | none => lowerAll scope p children
    | .name =>
      match Tree.terminal? (.node (.branch p) children) with
      | some token => return [← identifier scope (parent == some .assignmentStatement) token]
      | none => return []
    | .digit | .boolVal | .typeName =>
      match Tree.terminal? (.node (.branch p) children) with
      | some token => return [.leaf { node := .leaf token }]
      | none => return []
    | .program | .statementList | .statement | .expr | .charList | .boolOp | .intOp => do
      say .chatter .everything ("nothing to keep at '" ++ p.text ++ "', recursing")
      lowerAll scope p children

/-- Lower trees that stand below a node of the given nonterminal, one after the other. -/
def lowerAll (scope : ScopeId) (parent : Production) : Forest Node → Step (Forest Resolved)
  | [] => return []
  | t :: ts => do
    let first ← lower scope (some parent) t
    let others ← lowerAll scope parent ts
    return first ++ others

end

/-- A token by itself is lowered to nothing. -/
theorem lower_leaf (scope : ScopeId) (parent : Option Production) (token : Token)
    (ts : Forest Node) : lower scope parent (.node (.leaf token) ts) = pure [] := by
  rw [lower]

/-- No trees are lowered to nothing. -/
theorem lowerAll_nil (scope : ScopeId) (parent : Production) :
    lowerAll scope parent [] = pure [] := by
  rw [lowerAll]

/-- The warning a symbol deserves, if any. -/
def warning? (s : Symbol) : Option Event :=
  let warn (text : String) : Event :=
    { phase := .semantic, severity := .warning, text, position := some s.token.position }
  if s.used && !s.initialized then
    some (warn ("variable '" ++ s.name ++ "' was used but not initialized"))
  else if !s.used then some (warn ("unused variable '" ++ s.name ++ "'"))
  else none

/-- The warnings about all symbols, in the order of the listing. -/
def warnings (table : ScopeTable) : List Event := table.listed.filterMap warning?

/-- What is said of a finished analysis. -/
def summary (a : Analysis) : List Event :=
  let warned := warnings a.table
  warned ++
    [{ phase := .semantic, severity := .message, profile := .verbose,
       text := "symbol table:\n" ++ a.table.render },
     { phase := .semantic, severity := .message, profile := .verbose,
       text := "AST:\n" ++ Forest.renderResolved a.tree },
     { phase := .semantic, severity := .message,
       text := "semantic analysis completed with " ++ toString warned.length ++ " warning(s)" }]

/-- The event of an error. -/
def errorEvent (e : AnalysisError) : Event :=
  { phase := .semantic, severity := .error, text := e.message, position := e.position? }

/-- The start of an analysis. -/
def begin : Progress :=
  { table := .start
    events := #[{ phase := .semantic, severity := .message, profile := .verbose,
                  text := "began creating AST from CST" }] }

end Analysis

/-- Analyse the main tree of a forest. -/
def analyze (program : Forest Node) : Report AnalysisError Analysis :=
  match program with
  | [] => { result := .error .emptyTree, events := [] }
  | root :: _ =>
    match (Analysis.lower 0 none root).run Analysis.begin with
    | .ok tree progress =>
      let a : Analysis := { tree, table := progress.table }
      { result := .ok a, events := progress.events.toList ++ a.summary }
    | .error e progress =>
      { result := .error e, events := progress.events.toList ++ [Analysis.errorEvent e] }

end OnePage
