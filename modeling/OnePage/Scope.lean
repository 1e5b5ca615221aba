import OnePage.Scope.Names
import OnePage.Token

/-!
# Scopes and symbols

Scopes are nested blocks, numbered in the order in which they are opened; scope zero encloses all
others. Symbols are the variables declared in them, numbered in the order of their declarations. A
name is looked up from a scope outward, and the innermost declaration wins.

Specification: sections 3 and 4.3.
-/

namespace OnePage

/-- The types of variables and expressions. -/
inductive VarType where
  | int
  | boolean
  | string
  /-- No type is known. -/
  | none
  deriving DecidableEq

namespace VarType

/-- The type that a keyword names. -/
def ofKeyword (keyword : String) : VarType :=
  if keyword = "int" then int
  else if keyword = "boolean" then boolean
  else if keyword = "string" then string
  else none

/-- The word for a type. -/
def text : VarType → String
  | int => "int"
  | boolean => "boolean"
  | string => "string"
  | none => "none"

end VarType

/-- The number of a scope. -/
abbrev ScopeId := Nat

/-- The number of a symbol. -/
abbrev SymbolId := Nat

/-- A declared variable. -/
structure Symbol where
  name : String
  type : VarType
  /-- The name where it was declared. -/
  token : Token
  scope : ScopeId
  /-- Whether something is assigned to it. -/
  initialized : Bool := false
  /-- Whether its value is used. -/
  used : Bool := false
  deriving DecidableEq

/-- A scope. -/
structure Scope where
  /-- The scopes around it, nearest first. -/
  ancestors : List ScopeId
  /-- The symbols declared in it. -/
  names : Names
  deriving DecidableEq

/-- All scopes and symbols. -/
structure ScopeTable where
  scopes : Array Scope
  symbols : Array Symbol
  deriving DecidableEq

namespace ScopeTable

/-- The table with the outermost scope only. -/
def start : ScopeTable := { scopes := #[{ ancestors := [], names := [] }], symbols := #[] }

/-- The scopes around a scope, nearest first. -/
def ancestors (table : ScopeTable) (scope : ScopeId) : List ScopeId :=
  match table.scopes[scope]? with
  | some s => s.ancestors
  | none => []

/-- The names declared in a scope. -/
def names (table : ScopeTable) (scope : ScopeId) : Names :=
  match table.scopes[scope]? with
  | some s => s.names
  | none => []

/-- The scope right around a scope. -/
def parent? (table : ScopeTable) (scope : ScopeId) : Option ScopeId :=
  (table.ancestors scope).head?

/-- The scopes right inside a scope, in the order in which they were opened. -/
def children (table : ScopeTable) (scope : ScopeId) : List ScopeId :=
  (List.range table.scopes.size).filter (table.parent? · == some scope)

/-- The number of scopes around a scope. -/
def depth (table : ScopeTable) (scope : ScopeId) : Nat := (table.ancestors scope).length

/-- Open a scope inside another and return its number. -/
def adopt (table : ScopeTable) (parent : ScopeId) : ScopeId × ScopeTable :=
  (table.scopes.size,
    { table with
      scopes := table.scopes.push { ancestors := parent :: table.ancestors parent, names := [] } })

/-- Declare a variable in a scope and return its number. A name declared there before stands for
the new variable from now on. -/
def declare (table : ScopeTable) (scope : ScopeId) (type : VarType) (token : Token) :
    SymbolId × ScopeTable :=
  let symbol := table.symbols.size
  (symbol,
    { scopes := table.scopes.modify scope fun s ↦
        { s with names := s.names.insert token.lexeme symbol }
      symbols := table.symbols.push { name := token.lexeme, type, token, scope } })

/-- The symbol that a name stands for in a scope itself. -/
def lookupLocal? (table : ScopeTable) (scope : ScopeId) (name : String) : Option SymbolId :=
  (table.names scope).find? name

/-- The symbol that a name stands for in a scope or, failing that, in the nearest around it. -/
def lookup? (table : ScopeTable) (scope : ScopeId) (name : String) : Option SymbolId :=
  (scope :: table.ancestors scope).findSome? (table.lookupLocal? · name)

/-- Note that something is assigned to a symbol. -/
def markInitialized (table : ScopeTable) (symbol : SymbolId) : ScopeTable :=
  { table with symbols := table.symbols.modify symbol fun s ↦ { s with initialized := true } }

/-- Note that a symbol is used. -/
def markUsed (table : ScopeTable) (symbol : SymbolId) : ScopeTable :=
  { table with symbols := table.symbols.modify symbol fun s ↦ { s with used := true } }

/-- The type of a symbol. -/
def typeOf (table : ScopeTable) (symbol : SymbolId) : VarType :=
  match table.symbols[symbol]? with
  | some s => s.type
  | none => .none

/-- The name of a symbol. -/
def nameOf (table : ScopeTable) (symbol : SymbolId) : String :=
  match table.symbols[symbol]? with
  | some s => s.name
  | none => ""

/-- The way to a scope from the outermost one. -/
def path (table : ScopeTable) (scope : ScopeId) : List ScopeId :=
  (scope :: table.ancestors scope).reverse

/-- All scopes, each before those inside it and siblings in the order in which they were opened:
the order of their paths. -/
def walk (table : ScopeTable) : List ScopeId :=
  (List.range table.scopes.size).mergeSort fun a b ↦ !(table.path b).lex (table.path a)

/-- The symbols that names stand for, scope by scope and in the order of the names. -/
def listed (table : ScopeTable) : List Symbol :=
  table.walk.flatMap fun scope ↦ (table.names scope).filterMap fun (_, id) ↦ table.symbols[id]?

/-- The line of a symbol in the listing. -/
def symbolLine (table : ScopeTable) (s : Symbol) : String :=
  s.name ++ " " ++ s.type.text ++ " scope " ++ toString (table.depth s.scope) ++ " line " ++
    toString s.token.position.line ++ "\n"

/-- The listing of all symbols that names stand for. -/
def render (table : ScopeTable) : String := String.join (table.listed.map table.symbolLine)

end ScopeTable

end OnePage
