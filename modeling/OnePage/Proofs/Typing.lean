import OnePage.Draft
import OnePage.Proofs.Collections
import OnePage.Proofs.Spelling

/-!
# Well-typed programs

When a resolved tree is a well-typed program: each name stands for the symbol that is in scope under
it, operands agree in type, and every declaration has a symbol of its own, numbered in order. What a
program declares in a block is forgotten at its end.
-/

namespace OnePage

/-- Names with the symbols they stand for, innermost first. -/
abbrev Bindings := List (String × SymbolId)

/-- The word for a comparison. -/
def compareSign (equal : Bool) : String := if equal then "==" else "!="

/-- The tree is an expression of the type. -/
inductive ExprTyped (types : SymbolId → VarType) (names : Bindings) :
    Tree Resolved → VarType → Prop where
  | digit {m : Mark} {c : Char} : m.lexeme = String.ofList [c] → isDecimal c →
      ExprTyped types names (.leaf { node := .leaf (m.token .digit) }) .int
  | flag {m : Mark} (value : Bool) : m.lexeme = Stmt.flagWord value →
      ExprTyped types names (.leaf { node := .leaf (m.token .boolVal) }) .boolean
  | text {value : String} {p : Position} : (∀ c ∈ value.toList, isTextChar c) →
      ExprTyped types names (.leaf { node := .literal value p }) .string
  | var {m : Mark} {symbol : SymbolId} : names.lookup m.lexeme = some symbol →
      types symbol ≠ .none →
      ExprTyped types names (.leaf { node := .leaf (m.token .identifier), symbol := some symbol })
        (types symbol)
  | sum {m : Mark} {left right : Tree Resolved} : ExprTyped types names left .int →
      ExprTyped types names right .int →
      ExprTyped types names (.node { node := .leaf (m.token .intOp) } [left, right]) .int
  | compare {m : Mark} {left right : Tree Resolved} {type : VarType} (equal : Bool) :
      m.lexeme = compareSign equal → ExprTyped types names left type →
      ExprTyped types names right type →
      ExprTyped types names (.node { node := .leaf (m.token .boolOp) } [left, right]) .boolean

mutual

/-- The tree is a statement, before which `n` symbols are declared. -/
inductive StmtTyped (types : SymbolId → VarType) :
    Bindings → Nat → Tree Resolved → Bindings → Nat → Prop where
  | declare {names : Bindings} {n : Nat} {type name : Mark} :
      types n = .ofKeyword type.lexeme → types n ≠ .none →
      StmtTyped types names n (.node { node := .branch .varDecl }
        [.leaf { node := .leaf (type.token .typeWord) },
          .leaf { node := .leaf (name.token .identifier), symbol := some n }])
        ((name.lexeme, n) :: names) (n + 1)
  | assign {names : Bindings} {n : Nat} {name : Mark} {symbol : SymbolId}
      {value : Tree Resolved} : names.lookup name.lexeme = some symbol →
      ExprTyped types names value (types symbol) →
      StmtTyped types names n (.node { node := .branch .assignmentStatement }
        [.leaf { node := .leaf (name.token .identifier), symbol := some symbol }, value]) names n
  | print {names : Bindings} {n : Nat} {value : Tree Resolved} {type : VarType} :
      ExprTyped types names value type →
      StmtTyped types names n (.node { node := .branch .printStatement } [value]) names n
  | ifThen {names : Bindings} {n last : Nat} {condition body : Tree Resolved} :
      ExprTyped types names condition .boolean → StmtTyped types names n body names last →
      StmtTyped types names n (.node { node := .branch .ifStatement } [condition, body])
        names last
  | whileDo {names : Bindings} {n last : Nat} {condition body : Tree Resolved} :
      ExprTyped types names condition .boolean → StmtTyped types names n body names last →
      StmtTyped types names n (.node { node := .branch .whileStatement } [condition, body])
        names last
  | block {names inner : Bindings} {n last : Nat} {body : Forest Resolved} :
      StmtsTyped types names n body inner last →
      StmtTyped types names n (.node { node := .branch .block } body) names last

/-- The trees are statements one after the other. -/
inductive StmtsTyped (types : SymbolId → VarType) :
    Bindings → Nat → Forest Resolved → Bindings → Nat → Prop where
  | nil {names : Bindings} {n : Nat} : StmtsTyped types names n [] names n
  | cons {names mid later : Bindings} {n k last : Nat} {t : Tree Resolved}
      {ts : Forest Resolved} : StmtTyped types names n t mid k →
      StmtsTyped types mid k ts later last → StmtsTyped types names n (t :: ts) later last

end

variable {types : SymbolId → VarType}

/-- An expression has a type. -/
theorem ExprTyped.type_ne {names : Bindings} {t : Tree Resolved} {type : VarType}
    (h : ExprTyped types names t type) : type ≠ .none := by
  cases h with
  | var _ hne => exact hne
  | _ => decide

/-- The type of an expression is the one that its tree is found to have. -/
theorem ExprTyped.type_eq {table : ScopeTable} {names : Bindings} {t : Tree Resolved}
    {type : VarType} (h : ExprTyped table.typeOf names t type) : t.type table = .ok type := by
  induction h with
  | digit _ _ | flag _ _ | text _ | var _ _ => rfl
  | sum _ _ ihl ihr =>
    simp only [Tree.type, Forest.haveType, ihl, ihr, bind, Except.bind, if_true]
    rfl
  | compare equal _ _ _ ihl ihr =>
    simp only [Tree.type, Forest.haveType, ihl, ihr, bind, Except.bind, if_true]
    rfl

/-- The type of an expression depends only on the types of the symbols in scope. -/
theorem ExprTyped.congr {other : SymbolId → VarType} {names : Bindings} {t : Tree Resolved}
    {type : VarType} (h : ExprTyped types names t type)
    (same : ∀ b ∈ names, other b.2 = types b.2) : ExprTyped other names t type := by
  induction h with
  | digit hlexeme hc => exact .digit hlexeme hc
  | flag value hlexeme => exact .flag value hlexeme
  | text hchars => exact .text hchars
  | @var m symbol hl hne =>
    have hsymbol : other symbol = types symbol := same _ (mem_of_lookup hl)
    rw [← hsymbol]
    exact .var hl (hsymbol ▸ hne)
  | sum _ _ ihl ihr => exact .sum ihl ihr
  | compare equal hlexeme _ _ ihl ihr => exact .compare equal hlexeme ihl ihr

/-- Two operands that are found to agree have one type. -/
theorem types_agree {table : ScopeTable} {r : Resolved} {left right : Tree Resolved}
    {type first second : VarType} (h : Tree.type table (.node r [left, right]) = .ok type)
    (hl : left.type table = .ok first) (hr : right.type table = .ok second) : second = first := by
  simp only [Tree.type, Forest.haveType, hl, hr, bind, Except.bind] at h
  by_cases he : second = first
  · exact he
  · rw [if_neg he] at h
    cases h

mutual

/-- A statement only adds to the names in scope and to the symbols. -/
theorem StmtTyped.grows {names later : Bindings} {n last : Nat} {t : Tree Resolved}
    (h : StmtTyped types names n t later last) : names <:+ later ∧ n ≤ last := by
  cases h with
  | declare _ _ => exact ⟨List.suffix_cons _ _, Nat.le_succ n⟩
  | assign _ _ | print _ => exact ⟨List.suffix_refl _, Nat.le_refl n⟩
  | ifThen _ hbody => exact StmtTyped.grows hbody
  | whileDo _ hbody => exact StmtTyped.grows hbody
  | block hbody => exact ⟨List.suffix_refl _, (StmtsTyped.grows hbody).2⟩

/-- Statements add names to those in scope and take symbols from the next on. -/
theorem StmtsTyped.grows {names later : Bindings} {n last : Nat} {ts : Forest Resolved}
    (h : StmtsTyped types names n ts later last) : names <:+ later ∧ n ≤ last := by
  cases h with
  | nil => exact ⟨List.suffix_refl _, Nat.le_refl n⟩
  | cons ht hts =>
    obtain ⟨hnames, hn⟩ := StmtTyped.grows ht
    obtain ⟨hmore, hk⟩ := StmtsTyped.grows hts
    exact ⟨hnames.trans hmore, Nat.le_trans hn hk⟩

end

/-- The symbols are below a number, and none is there twice. -/
structure Numbered (n : Nat) (symbols : List SymbolId) : Prop where
  nodup : symbols.Nodup
  lt : ∀ symbol ∈ symbols, symbol < n

namespace Numbered

/-- The empty list of symbols is below any number. -/
theorem nil (n : Nat) : Numbered n [] := ⟨List.nodup_nil, by simp⟩

private theorem mono {n k : Nat} {symbols : List SymbolId} (h : Numbered n symbols) (hk : n ≤ k) :
    Numbered k symbols :=
  ⟨h.nodup, fun symbol hs ↦ Nat.lt_of_lt_of_le (h.lt symbol hs) hk⟩

/-- The next symbol is a new one. -/
theorem cons {n : Nat} {symbols : List SymbolId} (h : Numbered n symbols) :
    Numbered (n + 1) (n :: symbols) where
  nodup := List.nodup_cons.mpr ⟨fun hn ↦ Nat.lt_irrefl n (h.lt n hn), h.nodup⟩
  lt := List.forall_mem_cons.mpr ⟨Nat.lt_succ_self n, (h.mono (Nat.le_succ n)).lt⟩

end Numbered

/-- The names in scope stand for different symbols. -/
theorem StmtTyped.numbered {names later : Bindings} {n last : Nat} {t : Tree Resolved}
    (h : StmtTyped types names n t later last) (hn : Numbered n (names.map Prod.snd)) :
    Numbered last (later.map Prod.snd) := by
  have hle := h.grows.2
  cases h with
  | declare _ _ => exact hn.cons
  | assign _ _ | print _ | ifThen _ _ | whileDo _ _ | block _ => exact hn.mono hle

end OnePage
