import OnePage.Analysis
import OnePage.Proofs.Layout
import OnePage.Proofs.Scoping

/-!
# Lowering expressions

What each step of an analysis does to the table of scopes, with what it says left out of account.
Whenever an expression whose tokens are spelled as they should be is lowered, the resolved tree is a
well-typed expression.
-/

namespace OnePage.Analysis

open ScopeTable

/-- The step succeeds on the table with the result and leaves the other table. -/
def Gives {α : Type} (step : Step α) (table : ScopeTable) (a : α) (next : ScopeTable) : Prop :=
  ∃ events later, step.run { table, events } = .ok a { table := next, events := later }

section Steps

variable {α β : Type} {table next : ScopeTable}

/-- Two steps that succeed one after the other succeed each, the second on the table of the
first. -/
theorem Gives.bind {x : Step α} {f : α → Step β} {b : β} (h : Gives (x >>= f) table b next) :
    ∃ a mid, Gives x table a mid ∧ Gives (f a) mid b next := by
  obtain ⟨events, later, hrun⟩ := h
  obtain ⟨a, mid, hx, hf⟩ := run_bind_eq_ok.mp hrun
  exact ⟨a, mid.table, ⟨events, mid.events, hx⟩, ⟨mid.events, later, hf⟩⟩

/-- A step that does nothing gives its value and keeps the table. -/
theorem Gives.pure {a b : α} (h : Gives (pure a) table b next) : b = a ∧ next = table := by
  obtain ⟨_, _, hrun⟩ := h
  cases hrun
  exact ⟨rfl, rfl⟩

private theorem Gives.say {severity : Severity} {profile : Profile} {text : String}
    (h : Gives (say severity profile text) table () next) : next = table := by
  obtain ⟨_, _, hrun⟩ := h
  cases hrun
  rfl

private theorem Gives.onTable {change : ScopeTable → α × ScopeTable} {a : α}
    (h : Gives (onTable change) table a next) : change table = (a, next) := by
  obtain ⟨_, _, hrun⟩ := h
  cases hrun
  rfl

private theorem Gives.tableNow {a : ScopeTable} (h : Gives tableNow table a next) :
    a = table ∧ next = table := by
  obtain ⟨_, _, hrun⟩ := h
  cases hrun
  exact ⟨rfl, rfl⟩

private theorem not_gives_throw {e : AnalysisError} {a : α} : ¬Gives (throw e) table a next := by
  rintro ⟨_, _, hrun⟩
  cases hrun

/-- A node is made over the children that the step gives. -/
theorem Gives.branch {node : Node} {children : Step (Forest Resolved)} {t : Tree Resolved}
    (h : Gives (branch node children) table t next) :
    ∃ trees, Gives children table trees next ∧ t = .node { node } trees := by
  obtain ⟨_, mid, hsay, hrest⟩ := h.bind
  obtain rfl := hsay.say
  obtain ⟨trees, last, hchildren, hpure⟩ := hrest.bind
  obtain ⟨rfl, rfl⟩ := hpure.pure
  exact ⟨trees, hchildren, rfl⟩

/-- A tree that is checked has a type. -/
theorem Gives.check {t : Tree Resolved} (h : Gives (check t) table () next) :
    next = table ∧ ∃ type, t.type table = .ok type := by
  obtain ⟨now, mid, hnow, hrest⟩ := h.bind
  obtain ⟨rfl, rfl⟩ := hnow.tableNow
  cases htype : t.type mid with
  | error e =>
    rw [htype] at hrest
    exact absurd hrest not_gives_throw
  | ok type =>
    rw [htype] at hrest
    exact ⟨hrest.say, type, rfl⟩

end Steps

section Trees

variable {scope : ScopeId} {parent : Option Production} {table next : ScopeTable}
  {trees : Forest Resolved}

/-- Lowering no trees gives none and keeps the table. -/
theorem gives_lowerAll_nil {p : Production} (h : Gives (lowerAll scope p []) table trees next) :
    trees = [] ∧ next = table := by
  rw [lowerAll_nil] at h
  exact h.pure

/-- Lowering trees lowers the first and then the others, and gives what both gave. -/
theorem gives_lowerAll_cons {p : Production} {t : Tree Node} {ts : Forest Node}
    (h : Gives (lowerAll scope p (t :: ts)) table trees next) :
    ∃ first mid others, Gives (lower scope (some p) t) table first mid ∧
      Gives (lowerAll scope p ts) mid others next ∧ trees = first ++ others := by
  rw [lowerAll] at h
  obtain ⟨first, mid, hfirst, hrest⟩ := h.bind
  obtain ⟨others, last, hothers, hpure⟩ := hrest.bind
  obtain ⟨rfl, rfl⟩ := hpure.pure
  exact ⟨first, mid, others, hfirst, hothers, rfl⟩

/-- Lowering a list of one tree is lowering the tree. -/
theorem gives_lowerAll_single {p : Production} {t : Tree Node}
    (h : Gives (lowerAll scope p [t]) table trees next) :
    Gives (lower scope (some p) t) table trees next := by
  obtain ⟨first, mid, others, hfirst, hothers, rfl⟩ := gives_lowerAll_cons h
  obtain ⟨rfl, rfl⟩ := gives_lowerAll_nil hothers
  rwa [List.append_nil]

/-- Lowering a token gives nothing and keeps the table. -/
theorem gives_leaf {m : Mark} {kind : Kind}
    (h : Gives (lower scope parent (m.leaf kind)) table trees next) :
    trees = [] ∧ next = table := by
  rw [Mark.leaf, Tree.leaf, lower_leaf] at h
  exact h.pure

/-- Lowering tokens gives nothing and keeps the table. -/
theorem gives_leaves {p : Production} {ms : List Mark} {kind : Kind}
    (h : Gives (lowerAll scope p (ms.map (·.leaf kind))) table trees next) :
    trees = [] ∧ next = table := by
  induction ms generalizing table trees with
  | nil => exact gives_lowerAll_nil h
  | cons m ms ih =>
    obtain ⟨first, mid, others, hfirst, hothers, rfl⟩ := gives_lowerAll_cons h
    obtain ⟨rfl, rfl⟩ := gives_leaf hfirst
    exact ih hothers

/-- Nonterminals that only group others leave no node. -/
theorem gives_through {p : Production} {children : Forest Node}
    (hp : p = .program ∨ p = .statementList ∨ p = .statement ∨ p = .expr ∨ p = .charList ∨
      p = .boolOp ∨ p = .intOp)
    (h : Gives (lower scope parent (.node (.branch p) children)) table trees next) :
    Gives (lowerAll scope p children) table trees next := by
  rcases hp with rfl | rfl | rfl | rfl | rfl | rfl | rfl <;>
  · rw [lower] at h
    obtain ⟨_, mid, hsay, hrest⟩ := h.bind
    obtain rfl := hsay.say
    exact hrest

/-- A block has a scope of its own. -/
theorem gives_block {children : Forest Node}
    (h : Gives (lower scope parent (.node (.branch .block) children)) table trees next) :
    ∃ parts, Gives (lowerAll table.scopes.size .block children) (table.adopt scope).2 parts next ∧
      trees = [.node { node := .branch .block } parts] := by
  rw [lower] at h
  obtain ⟨inner, start, hadopt, hrest⟩ := Gives.bind h
  obtain ⟨t, last, hbranch, hpure⟩ := hrest.bind
  obtain ⟨rfl, rfl⟩ := hpure.pure
  obtain ⟨parts, hall, rfl⟩ := hbranch.branch
  have hadopted := hadopt.onTable
  obtain rfl : table.scopes.size = inner := congrArg Prod.fst hadopted
  obtain rfl : (table.adopt scope).2 = start := congrArg Prod.snd hadopted
  exact ⟨parts, hall, rfl⟩

/-- A declaration of a name that is new in the scope adds its symbol. Without a type or a name there
is nothing to declare. -/
theorem gives_declaration {children : Forest Node}
    (h : Gives (lower scope parent (.node (.branch .varDecl) children)) table trees next) :
    (∃ type name, lastTerminal? .typeName children = some type ∧
      lastTerminal? .name children = some name ∧ table.lookupLocal? scope name.lexeme = none ∧
      trees = [.node { node := .branch .varDecl } [.leaf { node := .leaf type },
        .leaf { node := .leaf name, symbol := some table.symbols.size }]] ∧
      next = (table.declare scope (.ofKeyword type.lexeme) name).2) ∨
    (∀ type name, lastTerminal? .typeName children = some type →
      lastTerminal? .name children ≠ some name) ∧
      trees = [.leaf { node := .branch .varDecl }] ∧ next = table := by
  rw [lower] at h
  obtain ⟨t, last, hbranch, hpure⟩ := Gives.bind h
  obtain ⟨rfl, rfl⟩ := hpure.pure
  obtain ⟨parts, hparts, rfl⟩ := hbranch.branch
  unfold declaration at hparts
  split at hparts
  · next type name htype hname =>
    obtain ⟨known, mid, hnow, hrest⟩ := Gives.bind hparts
    obtain ⟨rfl, rfl⟩ := hnow.tableNow
    split at hrest
    · exact absurd hrest not_gives_throw
    · next hnew =>
      obtain ⟨_, said, hsay, hadd⟩ := hrest.bind
      obtain rfl := hsay.say
      obtain ⟨symbol, last, hdeclare, hpure⟩ := hadd.bind
      obtain ⟨rfl, rfl⟩ := hpure.pure
      have hdeclared := hdeclare.onTable
      obtain rfl : said.symbols.size = symbol := congrArg Prod.fst hdeclared
      exact .inl ⟨type, name, htype, hname, hnew, rfl, (congrArg Prod.snd hdeclared).symm⟩
  · next hnone =>
    obtain ⟨rfl, rfl⟩ := hparts.pure
    exact .inr ⟨hnone, rfl, rfl⟩

/-- The token of a nonterminal that stands for a value or a type stays. -/
theorem gives_terminal {p : Production} {children : Forest Node}
    (hp : p = .digit ∨ p = .boolVal ∨ p = .typeName)
    (h : Gives (lower scope parent (.node (.branch p) children)) table trees next) :
    trees = ((Tree.terminal? (.node (.branch p) children)).map fun token ↦
      Tree.leaf { node := .leaf token }).toList ∧ next = table := by
  rcases hp with rfl | rfl | rfl <;>
  · rw [lower] at h
    split at h
    · next htoken =>
      rw [htoken]
      exact h.pure
    · next hnone =>
      rw [hnone]
      exact h.pure

/-- A token that stands for a value or a type stays. -/
theorem gives_wrapped {m : Mark} {p : Production} {kind : Kind}
    (hp : p = .digit ∨ p = .boolVal ∨ p = .typeName)
    (h : Gives (lower scope parent (m.wrapped p kind)) table trees next) :
    trees = [.leaf { node := .leaf (m.token kind) }] ∧ next = table := by
  rw [Mark.wrapped] at h
  exact gives_terminal hp h

private theorem gives_operator {m : Mark} {p : Production} {kind : Kind}
    (hp : p = .boolOp ∨ p = .intOp)
    (h : Gives (lower scope parent (m.wrapped p kind)) table trees next) :
    trees = [] ∧ next = table := by
  rcases hp with rfl | rfl
  · exact gives_leaf (gives_lowerAll_single (gives_through (by simp) h))
  · exact gives_leaf (gives_lowerAll_single (gives_through (by simp) h))

/-- An identifier stands for the symbol that is looked up, which is marked. -/
theorem gives_identifier {isTarget : Bool} {name : Token} {t : Tree Resolved}
    (h : Gives (identifier scope isTarget name) table t next) :
    ∃ symbol, table.lookup? scope name.lexeme = some symbol ∧
      t = .leaf { node := .leaf name, symbol := some symbol } ∧
      next = if isTarget then table.markInitialized symbol else table.markUsed symbol := by
  obtain ⟨known, mid, hnow, hrest⟩ := Gives.bind h
  obtain ⟨rfl, rfl⟩ := hnow.tableNow
  split at hrest
  · exact absurd hrest not_gives_throw
  · next symbol hlookup =>
    obtain ⟨_, last, hmark, hpure⟩ := hrest.bind
    obtain ⟨rfl, rfl⟩ := hpure.pure
    exact ⟨symbol, hlookup, rfl, (congrArg Prod.snd hmark.onTable).symm⟩

/-- A name stands for the symbol that is in scope under it. -/
theorem gives_name {m : Mark} {p : Production} {names : Bindings} (hs : InScope table scope names)
    (h : Gives (lower scope (some p) (m.wrapped .name .identifier)) table trees next) :
    Same table next ∧ ∃ symbol, names.lookup m.lexeme = some symbol ∧
      trees = [.leaf { node := .leaf (m.token .identifier), symbol := some symbol }] := by
  rw [Mark.wrapped, lower] at h
  obtain ⟨t, mid, hid, hpure⟩ := Gives.bind h
  obtain ⟨rfl, rfl⟩ := hpure.pure
  obtain ⟨symbol, hlookup, rfl, rfl⟩ := gives_identifier hid
  refine ⟨?_, symbol, (hs.lookup m.lexeme).symm.trans hlookup, rfl⟩
  split
  · exact same_markInitialized table symbol
  · exact same_markUsed table symbol

/-- An operator becomes the node above its operands, whose types agree. -/
theorem gives_operation {p : Production} {children : Forest Node} {operator : Token}
    (hp : p = .intExpr ∨ p = .boolExpr) (hop : operator? children = some operator)
    (h : Gives (lower scope parent (.node (.branch p) children)) table trees next) :
    ∃ operands, Gives (lowerAll scope p children) table operands next ∧
      trees = [.node { node := .leaf operator } operands] ∧
      ∃ type, Tree.type next (.node { node := .leaf operator } operands) = .ok type := by
  rcases hp with rfl | rfl <;>
  · rw [lower] at h
    simp only [hop] at h
    obtain ⟨_, start, hsay, hrest⟩ := h.bind
    obtain rfl := hsay.say
    obtain ⟨t, mid, hbranch, hrest⟩ := hrest.bind
    obtain ⟨operands, hall, rfl⟩ := hbranch.branch
    obtain ⟨_, last, hcheck, hpure⟩ := hrest.bind
    obtain ⟨rfl, htype⟩ := hcheck.check
    obtain ⟨rfl, rfl⟩ := hpure.pure
    exact ⟨operands, hall, rfl, htype⟩

/-- An expression without an operator is lowered to what its children are. -/
theorem gives_value {p : Production} {children : Forest Node}
    (hp : p = .intExpr ∨ p = .boolExpr) (hop : operator? children = none)
    (h : Gives (lower scope parent (.node (.branch p) children)) table trees next) :
    Gives (lowerAll scope p children) table trees next := by
  rcases hp with rfl | rfl <;>
  · rw [lower] at h
    simp only [hop] at h
    exact h

/-- The text between quotes is that of its characters. -/
theorem textOf_chars (opening : Mark) (chars : List Mark) (closing : Mark) :
    (textOf (Forest.labels (opening.leaf .quote :: (charTrees chars ++ [closing.leaf .quote])))).1 =
      String.join (chars.map Mark.lexeme) := by
  have hleaves : (Forest.labels
      (opening.leaf .quote :: (charTrees chars ++ [closing.leaf .quote]))).filterMap Node.token? =
      opening.token .quote :: (chars.map (·.token .char) ++ [closing.token .quote]) :=
    ((opening.derivation .quote).append
      ((derivation_charTrees chars).append (closing.derivation .quote))).leaves
  have hchars : (opening.token .quote :: (chars.map (·.token .char) ++
      [closing.token .quote])).filter (·.kind == .char) = chars.map (·.token .char) := by
    rw [List.filter_cons_of_neg (by simp), List.filter_append, List.filter_eq_self.mpr (by simp),
      List.filter_cons_of_neg (by simp), List.filter_nil, List.append_nil]
  rw [textOf, hleaves, hchars, List.map_map]
  rfl

/-- Characters are put together to one text. -/
theorem gives_string {children : Forest Node}
    (h : Gives (lower scope parent (.node (.branch .stringExpr) children)) table trees next) :
    next = table ∧ ∃ p, trees =
      [.leaf { node := .literal (textOf (Forest.labels children)).1 p }] := by
  rw [lower] at h
  obtain ⟨_, mid, hsay, hpure⟩ := Gives.bind h
  obtain rfl := hsay.say
  obtain ⟨rfl, rfl⟩ := hpure.pure
  exact ⟨rfl, _, rfl⟩

private theorem gives_text {opening : Mark} {chars : List Mark} {closing : Mark}
    (h : Gives (lower scope parent (.node (.branch .stringExpr)
      (opening.leaf .quote :: (charTrees chars ++ [closing.leaf .quote])))) table trees next) :
    next = table ∧ ∃ p, trees =
      [.leaf { node := .literal (String.join (chars.map Mark.lexeme)) p }] := by
  obtain ⟨rfl, p, rfl⟩ := gives_string h
  exact ⟨rfl, p, by rw [textOf_chars]⟩

end Trees

/-! ### Expressions -/

private theorem join_textChars {chars : List Mark}
    (spelled : ∀ t ∈ chars.map (·.token .char), t.Spelled) :
    ∀ c ∈ (String.join (chars.map Mark.lexeme)).toList, isTextChar c := by
  induction chars with
  | nil => simp
  | cons m chars ih =>
    obtain ⟨d, hlexeme, hd⟩ := spelled (m.token .char) (by simp)
    have hlexeme' : m.lexeme.toList = [d] := by
      rw [show m.lexeme = String.ofList [d] from hlexeme, String.toList_ofList]
    intro c hc
    rw [List.map_cons, String.join_cons, String.toList_append, hlexeme'] at hc
    rcases List.mem_cons.mp hc with rfl | hc
    · exact hd
    · exact ih (fun t ht ↦ spelled t (List.mem_cons_of_mem _ ht)) c hc

/-- The operator of a sum is its plus. -/
theorem operator?_sum (m plus : Mark) (t : Tree Node) :
    operator? [m.wrapped .digit .digit, plus.wrapped .intOp .intOp, t] =
      some (plus.token .intOp) := rfl

/-- The operator of a comparison is the one between its sides. -/
theorem operator?_compare (opening : Mark) (left : ExprPhrase) (operator : Mark) (t u : Tree Node) :
    operator? [opening.leaf .parenOpen, left.tree, operator.wrapped .boolOp .boolOp, t, u] =
      some (operator.token .boolOp) := by
  cases left <;> rw [ExprPhrase.tree] <;> rfl

mutual

/-- An expression that is lowered becomes one well-typed tree, and scopes and types stay the
same. -/
theorem lower_expr : ∀ (e : ExprPhrase) {scope : ScopeId} {parent : Option Production}
    {table next : ScopeTable} {trees : Forest Resolved} {names : Bindings},
    (∀ t ∈ e.tokens, t.Spelled) → InScope table scope names →
      Gives (lower scope parent e.tree) table trees next →
        Same table next ∧ ∃ t type, trees = [t] ∧ ExprTyped table.typeOf names t type
  | .digit m, scope, parent, table, next, trees, names, spelled, hs, h => by
    rw [ExprPhrase.tree] at h
    have hint := gives_lowerAll_single (gives_through (by simp) h)
    have hdigit := gives_lowerAll_single (gives_value (by simp) (by rfl) hint)
    obtain ⟨rfl, rfl⟩ := gives_wrapped (by simp) hdigit
    obtain ⟨c, hlexeme, hc⟩ := spelled (m.token .digit) (by simp [ExprPhrase.tokens])
    exact ⟨.refl _, _, .int, rfl, .digit hlexeme hc⟩
  | .sum m plus e, scope, parent, table, next, trees, names, spelled, hs, h => by
    rw [ExprPhrase.tree] at h
    have hint := gives_lowerAll_single (gives_through (by simp) h)
    obtain ⟨operands, hall, rfl, type, htype⟩ :=
      gives_operation (by simp) (operator?_sum m plus e.tree) hint
    obtain ⟨_, _, _, hdigit, all₁, rfl⟩ := gives_lowerAll_cons hall
    obtain ⟨rfl, rfl⟩ := gives_wrapped (by simp) hdigit
    obtain ⟨_, _, _, hplus, all₂, rfl⟩ := gives_lowerAll_cons all₁
    obtain ⟨rfl, rfl⟩ := gives_operator (by simp) hplus
    rw [ExprPhrase.tokens] at spelled
    obtain ⟨hsame, t, second, rfl, ht⟩ := lower_expr e
      (fun t ht ↦ spelled t (List.mem_cons_of_mem _ (List.mem_cons_of_mem _ ht))) hs
      (gives_lowerAll_single all₂)
    obtain ⟨c, hlexeme, hc⟩ := spelled (m.token .digit) (List.mem_cons_self ..)
    have hd : ExprTyped next.typeOf names (.leaf { node := .leaf (m.token .digit) }) .int :=
      .digit hlexeme hc
    have ht' : ExprTyped next.typeOf names t second := hsame.types ▸ ht
    obtain rfl := types_agree htype hd.type_eq ht'.type_eq
    exact ⟨hsame, _, .int, rfl, .sum (.digit hlexeme hc) ht⟩
  | .text opening chars closing, scope, parent, table, next, trees, names, spelled, hs, h => by
    rw [ExprPhrase.tree] at h
    obtain ⟨rfl, p, rfl⟩ := gives_text (gives_lowerAll_single (gives_through (by simp) h))
    refine ⟨.refl _, _, .string, rfl, .text (join_textChars fun t ht ↦ spelled t ?_)⟩
    rw [ExprPhrase.tokens]
    exact List.mem_cons_of_mem _ (List.mem_append_left _ ht)
  | .bool b, scope, parent, table, next, trees, names, spelled, hs, h => by
    rw [ExprPhrase.tree] at h
    rw [ExprPhrase.tokens] at spelled
    obtain ⟨hsame, t, rfl, htyped⟩ :=
      lower_bool b spelled hs (gives_lowerAll_single (gives_through (by simp) h))
    exact ⟨hsame, t, .boolean, rfl, htyped⟩
  | .name m, scope, parent, table, next, trees, names, spelled, hs, h => by
    rw [ExprPhrase.tree] at h
    obtain ⟨hsame, symbol, hlookup, rfl⟩ :=
      gives_name hs (gives_lowerAll_single (gives_through (by simp) h))
    exact ⟨hsame, _, table.typeOf symbol, rfl,
      .var hlookup (hs.typed symbol (hs.lookup_lt hlookup))⟩

/-- A truth value or comparison that is lowered becomes one well-typed tree of type boolean. -/
theorem lower_bool : ∀ (b : BoolPhrase) {scope : ScopeId} {parent : Option Production}
    {table next : ScopeTable} {trees : Forest Resolved} {names : Bindings},
    (∀ t ∈ b.tokens, t.Spelled) → InScope table scope names →
      Gives (lower scope parent b.tree) table trees next →
        Same table next ∧ ∃ t, trees = [t] ∧ ExprTyped table.typeOf names t .boolean
  | .value m, scope, parent, table, next, trees, names, spelled, hs, h => by
    rw [BoolPhrase.tree] at h
    obtain ⟨rfl, rfl⟩ := gives_wrapped (by simp)
      (gives_lowerAll_single (gives_value (by simp) (by rfl) h))
    rcases spelled (m.token .boolVal) (by simp [BoolPhrase.tokens]) with hlexeme | hlexeme
    · exact ⟨.refl _, _, rfl, .flag true hlexeme⟩
    · exact ⟨.refl _, _, rfl, .flag false hlexeme⟩
  | .compare opening left operator right closing, scope, parent, table, next, trees, names,
      spelled, hs, h => by
    rw [BoolPhrase.tree] at h
    obtain ⟨operands, hall, rfl, type, htype⟩ :=
      gives_operation (by simp) (operator?_compare opening left operator right.tree _) h
    obtain ⟨_, _, _, hopen, all₁, rfl⟩ := gives_lowerAll_cons hall
    obtain ⟨rfl, rfl⟩ := gives_leaf hopen
    obtain ⟨_, _, _, hleft, all₂, rfl⟩ := gives_lowerAll_cons all₁
    obtain ⟨_, _, _, hop, all₃, rfl⟩ := gives_lowerAll_cons all₂
    obtain ⟨rfl, rfl⟩ := gives_operator (by simp) hop
    obtain ⟨_, _, _, hright, all₄, rfl⟩ := gives_lowerAll_cons all₃
    obtain ⟨rfl, rfl⟩ := gives_leaf (gives_lowerAll_single all₄)
    simp only [BoolPhrase.tokens, List.mem_cons, List.mem_append] at spelled
    obtain ⟨hfirst, l, first, rfl, hl⟩ :=
      lower_expr left (fun t ht ↦ spelled t (.inr (.inl ht))) hs hleft
    obtain ⟨hsecond, r, second, rfl, hr⟩ := lower_expr right
      (fun t ht ↦ spelled t (.inr (.inr (.inr (.inl ht))))) (hs.same hfirst) hright
    have hsame := hfirst.trans hsecond
    rw [hfirst.types] at hr
    -- The types agree in the last table, and the first gives symbols the same types.
    have hl' := hl
    have hr' := hr
    rw [← hsame.types] at hl' hr'
    obtain rfl := types_agree htype hl'.type_eq hr'.type_eq
    rcases spelled (operator.token .boolOp) (.inr (.inr (.inl rfl))) with hlexeme | hlexeme
    · exact ⟨hsame, _, rfl, .compare true hlexeme hl hr⟩
    · exact ⟨hsame, _, rfl, .compare false hlexeme hl hr⟩

end

end OnePage.Analysis
