import OnePage.Proofs.Following
import OnePage.Proofs.Occurrence
import OnePage.Proofs.WellTyped

/-!
# The types inferred in an analysed program

Types are inferred once more on the tree that analysis leaves behind, with the symbols as they are
in the end. At every node that should have one a type is found, and what is found at the operands of
an operator, at a condition and at the two sides of an assignment is what the node asks for.
-/

namespace OnePage

/-- A node that has a type: an assignment, a print statement, an operator, and every leaf but the
word for a type. -/
def Resolved.isTyped (r : Resolved) : Bool :=
  match r.node with
  | .branch p => p = .assignmentStatement ∨ p = .printStatement
  | .leaf t => t.kind ≠ .typeWord
  | .literal _ _ => true

/-- The types inferred at a node and at its children agree with what the node stands for. -/
structure Tree.Inferred (table : ScopeTable) (t : Tree Resolved) : Prop where
  typed : t.label.isTyped = true → ∃ type, t.type table = .ok type ∧ type ≠ .none
  sum : t.label.node.kind? = some .intOp → ∃ left right, t.children = [left, right] ∧
    left.type table = .ok .int ∧ right.type table = .ok .int
  compare : t.label.node.kind? = some .boolOp → ∃ left right type, t.children = [left, right] ∧
    left.type table = .ok type ∧ right.type table = .ok type
  condition : t.label.node.production? = some .ifStatement ∨
      t.label.node.production? = some .whileStatement →
    ∃ condition body, t.children = [condition, body] ∧ condition.type table = .ok .boolean
  assignment : t.label.node.production? = some .assignmentStatement →
    ∃ target value symbol entry, t.children = [target, value] ∧
      target.label.symbol = some symbol ∧ table.symbols[symbol]? = some entry ∧
        target.type table = .ok entry.type ∧ value.type table = .ok entry.type

section Nodes

variable {table : ScopeTable}

/-- A symbol with a type is declared with that type. -/
theorem ScopeTable.declared_of_typeOf_ne {symbol : SymbolId} (h : table.typeOf symbol ≠ .none) :
    ∃ entry, table.symbols[symbol]? = some entry ∧ entry.type = table.typeOf symbol := by
  unfold ScopeTable.typeOf at h ⊢
  cases hentry : table.symbols[symbol]? with
  | none =>
    rw [hentry] at h
    exact absurd rfl h
  | some entry => exact ⟨entry, rfl, rfl⟩

/-- One child gives its type to its node. -/
theorem Tree.type_single {r : Resolved} {child : Tree Resolved} {type : VarType}
    (h : child.type table = .ok type) :
    (node r [child]).type table = .ok (r.branchType type) := by
  simp [Tree.type, Forest.haveType, h, bind, Except.bind, pure, Except.pure]

namespace Tree

/-- A leaf of an expression. -/
theorem inferred_leaf {r : Resolved} (h : r.leafType table ≠ .none) :
    (leaf r).Inferred table := by
  obtain ⟨n, symbol⟩ := r
  cases n with
  | branch p => exact absurd rfl h
  | literal text position =>
    refine ⟨fun _ ↦ ⟨_, rfl, h⟩, fun hk ↦ ?_, fun hk ↦ ?_,
      by simp [label, leaf, Node.production?], by simp [label, leaf, Node.production?]⟩
    · cases hk
    · cases hk
  | leaf token =>
    have hkind : ∀ kind, (Node.leaf token).kind? = some kind → token.kind = kind :=
      fun kind hk ↦ Option.some.inj hk
    refine ⟨fun _ ↦ ⟨_, rfl, h⟩, fun hk ↦ ?_, fun hk ↦ ?_,
      by simp [label, leaf, Node.production?], by simp [label, leaf, Node.production?]⟩
    -- An operator has no type without its operands.
    · exact absurd (by simp [Resolved.leafType, hkind _ hk]) h
    · exact absurd (by simp [Resolved.leafType, hkind _ hk]) h

private theorem inferred_typeWord {m : Mark} :
    (leaf { node := .leaf (m.token .typeWord) }).Inferred table :=
  ⟨nofun, nofun, nofun, by simp [label, leaf, Node.production?], nofun⟩

/-- Of a block and of a declaration nothing is asked. -/
theorem inferred_block {ts : Forest Resolved} :
    (node { node := .branch .block } ts).Inferred table :=
  ⟨nofun, nofun, nofun, by simp [label, Node.production?], nofun⟩

private theorem inferred_varDecl {ts : Forest Resolved} :
    (node { node := .branch .varDecl } ts).Inferred table :=
  ⟨nofun, nofun, nofun, by simp [label, Node.production?], nofun⟩

private theorem inferred_print {value : Tree Resolved} {type : VarType}
    (h : value.type table = .ok type) (hne : type ≠ .none) :
    (node { node := .branch .printStatement } [value]).Inferred table :=
  ⟨fun _ ↦ ⟨_, type_single h, hne⟩, nofun, nofun, by simp [label, Node.production?], nofun⟩

private theorem inferred_condition {p : Production} {condition body : Tree Resolved}
    (hp : p = .ifStatement ∨ p = .whileStatement) (h : condition.type table = .ok .boolean) :
    (node { node := .branch p } [condition, body]).Inferred table := by
  rcases hp with rfl | rfl
  · exact ⟨nofun, nofun, nofun, fun _ ↦ ⟨condition, body, rfl, h⟩, nofun⟩
  · exact ⟨nofun, nofun, nofun, fun _ ↦ ⟨condition, body, rfl, h⟩, nofun⟩

private theorem inferred_sum {m : Mark} {left right : Tree Resolved}
    (hleft : left.type table = .ok .int) (hright : right.type table = .ok .int) :
    (node { node := .leaf (m.token .intOp) } [left, right]).Inferred table :=
  ⟨fun _ ↦ ⟨.int, Analysis.type_pair hleft hright, nofun⟩,
    fun _ ↦ ⟨left, right, rfl, hleft, hright⟩, nofun, by simp [label, Node.production?], nofun⟩

private theorem inferred_compare {m : Mark} {left right : Tree Resolved} {type : VarType}
    (hleft : left.type table = .ok type) (hright : right.type table = .ok type) :
    (node { node := .leaf (m.token .boolOp) } [left, right]).Inferred table :=
  ⟨fun _ ↦ ⟨.boolean, Analysis.type_pair hleft hright, nofun⟩, nofun,
    fun _ ↦ ⟨left, right, type, rfl, hleft, hright⟩, by simp [label, Node.production?], nofun⟩

private theorem inferred_assignment {m : Mark} {symbol : SymbolId} {value : Tree Resolved}
    (h : value.type table = .ok (table.typeOf symbol)) (hne : table.typeOf symbol ≠ .none) :
    (node { node := .branch .assignmentStatement }
      [leaf { node := .leaf (m.token .identifier), symbol := some symbol },
        value]).Inferred table := by
  obtain ⟨entry, hentry, htype⟩ := ScopeTable.declared_of_typeOf_ne hne
  refine ⟨fun _ ↦ ⟨_, Analysis.type_pair rfl h, hne⟩, nofun, nofun,
    by simp [label, Node.production?], fun _ ↦ ⟨_, value, symbol, entry, rfl, rfl, hentry, ?_, ?_⟩⟩
  · rw [htype]
    rfl
  · rw [htype, h]

end Tree

end Nodes

section Programs

variable {table : ScopeTable}

/-- Every node of an expression has its type, and so have its operands. -/
theorem ExprTyped.inferred {names : Bindings} {t : Tree Resolved} {type : VarType}
    (h : ExprTyped table.typeOf names t type) : ∀ u ∈ t.subtrees, u.Inferred table := by
  induction h with
  | digit _ _ | flag _ _ | text _ =>
    exact Tree.forall_mem_subtrees_leaf (Tree.inferred_leaf nofun)
  | var _ hne => exact Tree.forall_mem_subtrees_leaf (Tree.inferred_leaf hne)
  | sum hleft hright ihleft ihright =>
    exact Tree.forall_mem_subtrees_pair
      (Tree.inferred_sum hleft.type_eq hright.type_eq) ihleft ihright
  | compare equal hlexeme hleft hright ihleft ihright =>
    exact Tree.forall_mem_subtrees_pair
      (Tree.inferred_compare hleft.type_eq hright.type_eq) ihleft ihright

mutual

/-- So has every node of a statement. -/
theorem StmtTyped.inferred {names later : Bindings} {n last : Nat} {t : Tree Resolved}
    (h : StmtTyped table.typeOf names n t later last) :
    ∀ u ∈ t.subtrees, u.Inferred table := by
  cases h with
  | declare htype hne =>
    exact Tree.forall_mem_subtrees_pair Tree.inferred_varDecl
      (Tree.forall_mem_subtrees_leaf Tree.inferred_typeWord)
      (Tree.forall_mem_subtrees_leaf (Tree.inferred_leaf hne))
  | assign hlookup hvalue =>
    have hne := hvalue.type_ne
    exact Tree.forall_mem_subtrees_pair (Tree.inferred_assignment hvalue.type_eq hne)
      (Tree.forall_mem_subtrees_leaf (Tree.inferred_leaf hne)) hvalue.inferred
  | print hvalue =>
    exact Tree.forall_mem_subtrees.mpr ⟨Tree.inferred_print hvalue.type_eq hvalue.type_ne,
      List.forall_mem_singleton.mpr hvalue.inferred⟩
  | ifThen hcondition hbody =>
    exact Tree.forall_mem_subtrees_pair (Tree.inferred_condition (.inl rfl) hcondition.type_eq)
      hcondition.inferred (StmtTyped.inferred hbody)
  | whileDo hcondition hbody =>
    exact Tree.forall_mem_subtrees_pair (Tree.inferred_condition (.inr rfl) hcondition.type_eq)
      hcondition.inferred (StmtTyped.inferred hbody)
  | block hbody =>
    exact Tree.forall_mem_subtrees.mpr ⟨Tree.inferred_block, StmtsTyped.inferred hbody⟩

private theorem StmtsTyped.inferred {names later : Bindings} {n last : Nat} {ts : Forest Resolved}
    (h : StmtsTyped table.typeOf names n ts later last) :
    ∀ t ∈ ts, ∀ u ∈ t.subtrees, u.Inferred table := by
  cases h with
  | nil => exact nofun
  | cons ht hts =>
    exact List.forall_mem_cons.mpr ⟨StmtTyped.inferred ht, StmtsTyped.inferred hts⟩

end

end Programs

/-- Types inferred once more on an analysed program are found at every node that should have one,
and they are those that the operators, conditions and assignments ask for. -/
theorem analyze_infers_types (source : String) (tokens : List Token) (program : Forest Node)
    (a : Analysis) (hscan : (Scan.ofSource source).result = .ok tokens)
    (hparse : (parse tokens).result = .ok program)
    (hanalyze : (analyze program).result = .ok a) :
    (∃ root, a.tree = [root]) ∧ ∀ t ∈ Forest.subtrees a.tree, t.Inferred a.table := by
  obtain ⟨root, htree, htyped⟩ := stages_typed hscan hparse hanalyze
  refine ⟨⟨root, htree⟩, fun t ht ↦ ?_⟩
  rw [htree, Forest.mem_subtrees] at ht
  obtain ⟨_, hroot, ht⟩ := ht
  rw [List.mem_singleton.mp hroot] at ht
  exact htyped.inferred t ht

/-- A source with a condition of each kind, a sum inside a comparison, and a text. -/
def everyType : String :=
  "\x7bint a a = 1 boolean b b = (1 + a == 2) while (a != 3) \x7ba = 1 + a\x7d " ++
    "if (b == true) \x7bprint(\"x\")\x7d\x7d$"

/-- Of its nodes 25 have a type, and each is found again. -/
theorem analyze_infers_types_everyType : ∃ tokens program a,
    (Scan.ofSource everyType).result = .ok tokens ∧ (parse tokens).result = .ok program ∧
    (analyze program).result = .ok a ∧ (Forest.labels a.tree).countP Resolved.isTyped = 25 ∧
    (∃ root, a.tree = [root]) ∧ ∀ t ∈ Forest.subtrees a.tree, t.Inferred a.table := by
  have hcount : (analyzed? everyType).map
      (fun a ↦ (Forest.labels a.tree).countP Resolved.isTyped) = some 25 := by
    decide +kernel
  obtain ⟨a, hanalyzed, hcount⟩ := Option.map_eq_some_iff.mp hcount
  obtain ⟨_, _, hscan, hparse, hanalyze⟩ := analyzed?_eq_some hanalyzed
  exact ⟨_, _, a, hscan, hparse, hanalyze, hcount,
    analyze_infers_types _ _ _ _ hscan hparse hanalyze⟩

end OnePage
