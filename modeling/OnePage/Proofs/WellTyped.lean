import OnePage.Compile
import OnePage.Proofs.Acceptance
import OnePage.Proofs.Lowering

/-!
# What is analysed is well-typed

Whenever a statement whose tokens are spelled as they should be is lowered, the resolved tree is a
well-typed statement. So the analysis of a source text that can be read gives a well-typed program.
-/

namespace OnePage

namespace Analysis

open ScopeTable

/-- A well-typed statement whose declarations are in the table that is left. -/
structure Lowered (scope : ScopeId) (names : Bindings) (table : ScopeTable) (t : Tree Resolved)
    (later : Bindings) (next : ScopeTable) : Prop where
  keeps : ChangesOnly scope table next
  inScope : InScope next scope later
  typed : ∀ types : SymbolId → VarType,
    (∀ symbol < next.symbols.size, types symbol = next.typeOf symbol) →
      StmtTyped types names table.symbols.size t later next.symbols.size

/-- Well-typed statements one after the other. -/
structure LoweredAll (scope : ScopeId) (names : Bindings) (table : ScopeTable)
    (ts : Forest Resolved) (later : Bindings) (next : ScopeTable) : Prop where
  keeps : ChangesOnly scope table next
  inScope : InScope next scope later
  typed : ∀ types : SymbolId → VarType,
    (∀ symbol < next.symbols.size, types symbol = next.typeOf symbol) →
      StmtsTyped types names table.symbols.size ts later next.symbols.size

section Statements

variable {scope : ScopeId} {parent : Option Production} {table next : ScopeTable}
  {trees : Forest Resolved} {names : Bindings}

/-- An expression in scope has its type under all types that agree with the table. -/
theorem typed_under {types : SymbolId → VarType} {t : Tree Resolved} {type : VarType}
    (hs : InScope table scope names) (same : Same table next)
    (agree : ∀ symbol < next.symbols.size, types symbol = next.typeOf symbol)
    (h : ExprTyped table.typeOf names t type) : ExprTyped types names t type := by
  apply h.congr
  intro b hb
  rw [agree b.2 (same.symbols ▸ hs.declared b hb), same.types]

private theorem lower_declaration {type name : Mark} (spelled : (type.token .typeWord).Spelled)
    (hs : InScope table scope names)
    (h : Gives (lower scope parent (.node (.branch .varDecl)
      [type.wrapped .typeName .typeWord, name.wrapped .name .identifier])) table trees next) :
    ∃ t later, trees = [t] ∧ Lowered scope names table t later next := by
  have hkeyword : VarType.ofKeyword type.lexeme ≠ .none := by
    rcases spelled with hlexeme | hlexeme | hlexeme <;>
    · rw [show type.lexeme = _ from hlexeme]
      decide
  rcases gives_declaration h with ⟨_, _, htype, hname, _, rfl, rfl⟩ | ⟨hnone, _⟩
  · cases htype
    cases hname
    have hsize : (table.declare scope (.ofKeyword type.lexeme)
        (name.token .identifier)).2.symbols.size = table.symbols.size + 1 := by
      simp [ScopeTable.declare]
    refine ⟨_, _, rfl, changesOnly_declare _ _ _ _,
      hs.declare hkeyword (name.token .identifier), ?_⟩
    intro types agree
    rw [show (type.token .typeWord).lexeme = type.lexeme from rfl, hsize] at agree ⊢
    have htype := agree table.symbols.size (Nat.lt_succ_self _)
    rw [typeOf_declare, if_pos rfl] at htype
    exact .declare htype (htype ▸ hkeyword)
  · exact absurd rfl (hnone _ _ rfl)

/-- A statement that is checked has children whose types were found to agree. -/
theorem gives_checked {p : Production} {children : Forest Node}
    (hp : p = .assignmentStatement ∨ p = .printStatement)
    (h : Gives (lower scope parent (.node (.branch p) children)) table trees next) :
    ∃ parts, Gives (lowerAll scope p children) table parts next ∧
      trees = [.node { node := .branch p } parts] ∧
      ∃ type, Tree.type next (.node { node := .branch p } parts) = .ok type := by
  rcases hp with rfl | rfl <;>
  · rw [lower] at h
    obtain ⟨t, mid, hbranch, hrest⟩ := Gives.bind h
    obtain ⟨parts, hall, rfl⟩ := hbranch.branch
    obtain ⟨_, last, hcheck, hpure⟩ := hrest.bind
    obtain ⟨rfl, htype⟩ := hcheck.check
    obtain ⟨rfl, rfl⟩ := hpure.pure
    exact ⟨parts, hall, rfl, htype⟩

private theorem lower_assignment {name sign : Mark} {value : ExprPhrase}
    (spelled : ∀ t ∈ value.tokens, t.Spelled) (hs : InScope table scope names)
    (h : Gives (lower scope parent (.node (.branch .assignmentStatement)
      [name.wrapped .name .identifier, sign.leaf .assign, value.tree])) table trees next) :
    ∃ t later, trees = [t] ∧ Lowered scope names table t later next := by
  obtain ⟨parts, hall, rfl, type, htype⟩ := gives_checked (by simp) h
  obtain ⟨_, _, _, hname, all₁, rfl⟩ := gives_lowerAll_cons hall
  obtain ⟨_, _, _, hsign, all₂, rfl⟩ := gives_lowerAll_cons all₁
  obtain ⟨rfl, rfl⟩ := gives_leaf hsign
  obtain ⟨hfirst, symbol, hlookup, rfl⟩ := gives_name hs hname
  obtain ⟨hsecond, v, second, rfl, hv⟩ :=
    lower_expr value spelled (hs.same hfirst) (gives_lowerAll_single all₂)
  have hsame := hfirst.trans hsecond
  rw [hfirst.types] at hv
  have hv' := hv
  rw [← hsame.types] at hv'
  obtain rfl : second = next.typeOf symbol := types_agree htype rfl hv'.type_eq
  refine ⟨_, names, rfl, hsame.changesOnly scope, hs.same hsame, fun types agree ↦ ?_⟩
  have hsymbol : types symbol = next.typeOf symbol :=
    agree symbol (hsame.symbols ▸ hs.lookup_lt hlookup)
  rw [hsame.symbols]
  exact .assign hlookup (hsymbol ▸ typed_under hs hsame agree hv)

private theorem lower_print {word opening closing : Mark} {value : ExprPhrase}
    (spelled : ∀ t ∈ value.tokens, t.Spelled) (hs : InScope table scope names)
    (h : Gives (lower scope parent (.node (.branch .printStatement)
      [word.leaf .printWord, opening.leaf .parenOpen, value.tree, closing.leaf .parenClose]))
        table trees next) :
    ∃ t later, trees = [t] ∧ Lowered scope names table t later next := by
  obtain ⟨parts, hall, rfl, type, htype⟩ := gives_checked (by simp) h
  obtain ⟨_, _, _, hword, all₁, rfl⟩ := gives_lowerAll_cons hall
  obtain ⟨rfl, rfl⟩ := gives_leaf hword
  obtain ⟨_, _, _, hopen, all₂, rfl⟩ := gives_lowerAll_cons all₁
  obtain ⟨rfl, rfl⟩ := gives_leaf hopen
  obtain ⟨_, _, _, hvalue, all₃, rfl⟩ := gives_lowerAll_cons all₂
  obtain ⟨rfl, rfl⟩ := gives_leaf (gives_lowerAll_single all₃)
  obtain ⟨hsame, v, type, rfl, hv⟩ := lower_expr value spelled hs hvalue
  refine ⟨_, names, rfl, hsame.changesOnly scope, hs.same hsame, fun types agree ↦ ?_⟩
  rw [hsame.symbols]
  exact .print (typed_under hs hsame agree hv)

/-- Lowering the statements of a block, in its own scope, lowers the block. -/
theorem lower_block {opening closing : Mark} {body : List StmtPhrase}
    (hbody : ∀ {scope : ScopeId} {p : Production} {table next : ScopeTable}
      {trees : Forest Resolved} {ms : List Mark}, InScope table scope names →
        Gives (lowerAll scope p (StmtPhrase.trees body ++ ms.map (·.leaf .braceClose)))
          table trees next →
            ∃ later, LoweredAll scope names table trees later next)
    (hs : InScope table scope names)
    (h : Gives (lower scope parent (blockTree opening (StmtPhrase.trees body) closing))
      table trees next) :
    ∃ t, trees = [t] ∧ Lowered scope names table t names next := by
  obtain ⟨parts, hall, rfl⟩ := gives_block h
  obtain ⟨_, _, _, hopen, hstmts, rfl⟩ := gives_lowerAll_cons hall
  obtain ⟨rfl, rfl⟩ := gives_leaf hopen
  obtain ⟨later, hlowered⟩ :=
    hbody hs.adopt (show Gives (lowerAll _ _ (_ ++ [closing].map _)) _ _ _ from hstmts)
  refine ⟨_, rfl, hlowered.keeps.leave scope, hs.leave hlowered.keeps hlowered.inScope, ?_⟩
  intro types agree
  exact .block (hlowered.typed types agree)

/-- A conditional statement and a loop keep their parts as they are lowered. -/
theorem gives_guarded {p : Production} {children : Forest Node}
    (hp : p = .ifStatement ∨ p = .whileStatement)
    (h : Gives (lower scope parent (.node (.branch p) children)) table trees next) :
    ∃ parts, Gives (lowerAll scope p children) table parts next ∧
      trees = [.node { node := .branch p } parts] := by
  rcases hp with rfl | rfl <;>
  · rw [lower] at h
    obtain ⟨t, mid, hbranch, hpure⟩ := Gives.bind h
    obtain ⟨rfl, rfl⟩ := hpure.pure
    obtain ⟨parts, hall, rfl⟩ := hbranch.branch
    exact ⟨parts, hall, rfl⟩

/-- A condition and a block under a word are lowered if the block is. -/
theorem lower_guarded {p : Production} {kind : Kind} {word : Mark} {condition : BoolPhrase}
    {block : Tree Node} (hp : p = .ifStatement ∨ p = .whileStatement)
    (spelled : ∀ t ∈ condition.tokens, t.Spelled)
    (hblock : ∀ {table : ScopeTable} {trees : Forest Resolved}, InScope table scope names →
      Gives (lower scope (some p) block) table trees next →
        ∃ t, trees = [t] ∧ Lowered scope names table t names next)
    (hs : InScope table scope names)
    (h : Gives (lower scope parent (.node (.branch p) [word.leaf kind, condition.tree, block]))
      table trees next) :
    ∃ t, trees = [t] ∧ Lowered scope names table t names next := by
  obtain ⟨parts, hall, rfl⟩ := gives_guarded hp h
  obtain ⟨_, _, _, hword, all₁, rfl⟩ := gives_lowerAll_cons hall
  obtain ⟨rfl, rfl⟩ := gives_leaf hword
  obtain ⟨_, _, _, hcond, all₂, rfl⟩ := gives_lowerAll_cons all₁
  obtain ⟨hsame, test, rfl, htest⟩ := lower_bool condition spelled hs hcond
  obtain ⟨body, rfl, hlowered⟩ := hblock (hs.same hsame) (gives_lowerAll_single all₂)
  refine ⟨_, rfl, (hsame.changesOnly scope).trans hlowered.keeps, hlowered.inScope, ?_⟩
  intro types agree
  have hbody := hlowered.typed types agree
  rw [hsame.symbols] at hbody
  -- The block may have declared more, but not changed the types of what was in scope before it.
  have hcondition : ExprTyped types names test .boolean := by
    refine htest.congr fun b hb ↦ ?_
    have hlt := hs.declared b hb
    rw [← hsame.symbols] at hlt
    rw [agree b.2 (Nat.lt_of_lt_of_le hlt hlowered.keeps.symbols), hlowered.keeps.types b.2 hlt,
      hsame.types]
  rcases hp with rfl | rfl
  · exact .ifThen hcondition hbody
  · exact .whileDo hcondition hbody

end Statements

mutual

private theorem lower_stmt : ∀ (s : StmtPhrase) {scope : ScopeId} {parent : Option Production}
    {table next : ScopeTable} {trees : Forest Resolved} {names : Bindings},
    (∀ t ∈ s.tokens, t.Spelled) → InScope table scope names →
      Gives (lower scope parent s.tree) table trees next →
        ∃ t later, trees = [t] ∧ Lowered scope names table t later next
  | .print word opening value closing, scope, parent, table, next, trees, names, spelled, hs,
      h => by
    rw [StmtPhrase.tree] at h
    simp only [StmtPhrase.tokens, List.mem_cons, List.mem_append] at spelled
    exact lower_print (fun t ht ↦ spelled t (.inr (.inr (.inl ht)))) hs
      (gives_lowerAll_single (gives_through (by simp) h))
  | .assign name sign value, scope, parent, table, next, trees, names, spelled, hs, h => by
    rw [StmtPhrase.tree] at h
    simp only [StmtPhrase.tokens, List.mem_cons] at spelled
    exact lower_assignment (fun t ht ↦ spelled t (.inr (.inr ht))) hs
      (gives_lowerAll_single (gives_through (by simp) h))
  | .declare type name, scope, parent, table, next, trees, names, spelled, hs, h => by
    rw [StmtPhrase.tree] at h
    simp only [StmtPhrase.tokens, List.mem_cons] at spelled
    exact lower_declaration (spelled _ (.inl rfl)) hs
      (gives_lowerAll_single (gives_through (by simp) h))
  | .whileDo word condition opening body closing, scope, parent, table, next, trees, names,
      spelled, hs, h => by
    rw [StmtPhrase.tree] at h
    simp only [StmtPhrase.tokens, blockTokens, List.mem_cons, List.mem_append] at spelled
    obtain ⟨t, rfl, hlowered⟩ := lower_guarded (.inr rfl)
      (fun t ht ↦ spelled t (.inr (.inl ht)))
      (fun hs h ↦ lower_block (fun hs h ↦ lower_stmts body
        (fun t ht ↦ spelled t (.inr (.inr (.inr (.inl ht))))) hs h) hs h) hs
      (gives_lowerAll_single (gives_through (by simp) h))
    exact ⟨t, names, rfl, hlowered⟩
  | .ifThen word condition opening body closing, scope, parent, table, next, trees, names,
      spelled, hs, h => by
    rw [StmtPhrase.tree] at h
    simp only [StmtPhrase.tokens, blockTokens, List.mem_cons, List.mem_append] at spelled
    obtain ⟨t, rfl, hlowered⟩ := lower_guarded (.inl rfl)
      (fun t ht ↦ spelled t (.inr (.inl ht)))
      (fun hs h ↦ lower_block (fun hs h ↦ lower_stmts body
        (fun t ht ↦ spelled t (.inr (.inr (.inr (.inl ht))))) hs h) hs h) hs
      (gives_lowerAll_single (gives_through (by simp) h))
    exact ⟨t, names, rfl, hlowered⟩
  | .block opening body closing, scope, parent, table, next, trees, names, spelled, hs, h => by
    rw [StmtPhrase.tree] at h
    simp only [StmtPhrase.tokens, blockTokens, List.mem_cons, List.mem_append] at spelled
    obtain ⟨t, rfl, hlowered⟩ := lower_block (fun hs h ↦ lower_stmts body
      (fun t ht ↦ spelled t (.inr (.inl ht))) hs h) hs
      (gives_lowerAll_single (gives_through (by simp) h))
    exact ⟨t, names, rfl, hlowered⟩

private theorem lower_stmts : ∀ (ss : List StmtPhrase) {scope : ScopeId} {p : Production}
    {table next : ScopeTable} {trees : Forest Resolved} {names : Bindings} {ms : List Mark},
    (∀ t ∈ StmtPhrase.allTokens ss, t.Spelled) → InScope table scope names →
      Gives (lowerAll scope p (StmtPhrase.trees ss ++ ms.map (·.leaf .braceClose)))
        table trees next →
          ∃ later, LoweredAll scope names table trees later next
  | [], scope, p, table, next, trees, names, ms, _, hs, h => by
    obtain ⟨rfl, rfl⟩ := gives_leaves h
    exact ⟨names, .refl scope _, hs, fun types _ ↦ .nil⟩
  | s :: ss, scope, p, table, next, trees, names, ms, spelled, hs, h => by
    simp only [StmtPhrase.allTokens, List.mem_append] at spelled
    rw [StmtPhrase.trees] at h
    obtain ⟨_, _, _, hlist, hleaves, rfl⟩ := gives_lowerAll_cons h
    obtain ⟨rfl, rfl⟩ := gives_leaves hleaves
    obtain ⟨_, mid, _, hstmt, hstmts, rfl⟩ := gives_lowerAll_cons (gives_through (by simp) hlist)
    obtain ⟨t, between, rfl, hfirst⟩ := lower_stmt s (fun t ht ↦ spelled t (.inl ht)) hs hstmt
    rw [← List.append_nil (StmtPhrase.trees ss)] at hstmts
    obtain ⟨later, hrest⟩ := lower_stmts ss (fun t ht ↦ spelled t (.inr ht)) hfirst.inScope
      (show Gives (lowerAll _ _ (_ ++ ([] : List Mark).map _)) _ _ _ from hstmts)
    refine ⟨later, hfirst.keeps.trans hrest.keeps, hrest.inScope, fun types agree ↦ ?_⟩
    rw [List.append_nil]
    refine .cons (hfirst.typed types fun symbol hsymbol ↦ ?_) (hrest.typed types agree)
    rw [agree symbol (Nat.lt_of_lt_of_le hsymbol hrest.keeps.symbols),
      hrest.keeps.types symbol hsymbol]

end

end Analysis

/-- The table before anything is declared has no names in scope. -/
theorem ScopeTable.inScope_start : ScopeTable.InScope .start 0 [] where
  scope_lt := by decide
  ancestors_lt s a ha := by
    cases s with
    | zero => simp [ScopeTable.ancestors, ScopeTable.start] at ha
    | succ s => simp [ScopeTable.ancestors, ScopeTable.start] at ha
  lookup name := by
    simp [ScopeTable.lookup?, ScopeTable.lookupLocal?, ScopeTable.names, ScopeTable.ancestors,
      ScopeTable.start, Names.find?]
  declared := by simp
  typed symbol hs := by simp [ScopeTable.start] at hs

/-- An analysis that succeeds has lowered the first tree. -/
theorem analyze_gives {program : Forest Node} {a : Analysis}
    (h : (analyze program).result = .ok a) : ∃ root others, program = root :: others ∧
      Analysis.Gives (Analysis.lower 0 none root) .start a.tree a.table := by
  cases program with
  | nil => cases h
  | cons root others =>
    unfold analyze at h
    dsimp only at h
    split at h
    · next tree progress hrun =>
      cases h
      exact ⟨root, others, rfl, _, progress.events, hrun⟩
    · cases h

/-- The analysis of a program whose tokens are spelled as they should be is one well-typed
statement. -/
theorem analyze_typed {p : ProgramPhrase} {a : Analysis} (spelled : ∀ t ∈ p.tokens, t.Spelled)
    (h : (analyze [p.tree]).result = .ok a) :
    ∃ root, a.tree = [root] ∧
      StmtTyped a.table.typeOf [] 0 root [] a.table.symbols.size := by
  obtain ⟨_, _, hprogram, hgives⟩ := analyze_gives h
  obtain ⟨rfl, _⟩ := List.cons.inj hprogram
  simp only [ProgramPhrase.tokens, blockTokens, List.mem_append, List.mem_cons] at spelled
  obtain ⟨_, _, _, hblock, hsentinel, htree⟩ :=
    Analysis.gives_lowerAll_cons (Analysis.gives_through (by simp) hgives)
  obtain ⟨rfl, hnext⟩ := Analysis.gives_leaf (Analysis.gives_lowerAll_single hsentinel)
  rw [← hnext] at hblock
  obtain ⟨root, rfl, hlowered⟩ := Analysis.lower_block (fun hs h ↦ Analysis.lower_stmts p.body
    (fun t ht ↦ spelled t (.inl (.inr (.inl ht)))) hs h) ScopeTable.inScope_start hblock
  exact ⟨root, htree, hlowered.typed _ fun _ _ ↦ rfl⟩

/-- The stages before code generation give a well-typed program. -/
theorem stages_typed {source : String} {tokens : List Token} {cst : Forest Node} {a : Analysis}
    (hscan : (Scan.ofSource source).result = .ok tokens) (hparse : (parse tokens).result = .ok cst)
    (hanalyze : (analyze cst).result = .ok a) :
    ∃ root, a.tree = [root] ∧
      StmtTyped a.table.typeOf [] 0 root [] a.table.symbols.size := by
  obtain ⟨rest, hprogram⟩ := parse_eq_ok.mp hparse
  obtain ⟨p, rfl, rfl⟩ := Derivation.program_sound hprogram
  exact analyze_typed
    (fun t ht ↦ Scan.spelled_result hscan t (List.mem_append_left rest ht)) hanalyze

/-- What the stages before code generation make of a source, if they succeed. -/
def analyzed? (source : String) : Option Analysis :=
  (Scan.ofSource source).result.toOption.bind fun tokens ↦
    (parse tokens).result.toOption.bind fun program ↦ (analyze program).result.toOption

/-- A source is analyzed if each of the stages succeeds on what the one before it gave. -/
theorem analyzed?_eq_some {source : String} {a : Analysis} (h : analyzed? source = some a) :
    ∃ tokens program, (Scan.ofSource source).result = .ok tokens ∧
      (parse tokens).result = .ok program ∧ (analyze program).result = .ok a := by
  obtain ⟨tokens, hscan, hrest⟩ := Option.bind_eq_some_iff.mp h
  obtain ⟨program, hparse, hanalyze⟩ := Option.bind_eq_some_iff.mp hrest
  exact ⟨tokens, program, eq_ok_of_toOption hscan, eq_ok_of_toOption hparse,
    eq_ok_of_toOption hanalyze⟩

/-- Going on with a report succeeds if both parts do. -/
theorem Report.andThen_eq_ok {ε α β : Type} {r : Report ε α} {next : α → Report ε β} {b : β} :
    (r.andThen next).result = .ok b ↔ ∃ a, r.result = .ok a ∧ (next a).result = .ok b := by
  unfold andThen
  cases r.result with
  | error e => simp
  | ok a => simp

/-- A report with its error renamed has the same success. -/
theorem Report.mapError_eq_ok {ε δ α : Type} {f : ε → δ} {r : Report ε α} {a : α} :
    (r.mapError f).result = .ok a ↔ r.result = .ok a := by
  unfold mapError
  cases r.result with
  | error e =>
    constructor <;> intro h <;> cases h
  | ok b =>
    constructor <;> intro h <;> cases h <;> rfl

/-- A compilation that succeeds has gone through all stages. -/
theorem compile_eq_ok {source : String} {artifact : Artifact}
    (h : (compile source).result = .ok artifact) :
    (Scan.ofSource source).result = .ok artifact.tokens ∧
      (parse artifact.tokens).result = .ok artifact.program ∧
      (analyze artifact.program).result = .ok artifact.analysis ∧
      (generate artifact.analysis).result = .ok artifact.image := by
  obtain ⟨tokens, hscan, h⟩ := Report.andThen_eq_ok.mp h
  obtain ⟨program, hparse, h⟩ := Report.andThen_eq_ok.mp h
  obtain ⟨analysis, hanalyze, h⟩ := Report.andThen_eq_ok.mp h
  obtain ⟨image, hgenerate, h⟩ := Report.andThen_eq_ok.mp h
  cases h
  rw [Report.mapError_eq_ok] at hscan hparse hanalyze hgenerate
  exact ⟨hscan, hparse, hanalyze, hgenerate⟩

end OnePage
