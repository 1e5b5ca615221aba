import OnePage.Proofs.NodeBytes

/-!
# The nodes that have calls

Which nodes of a program are evaluated and which are statements is said of the tree alone. If the
program that a tree is read as is drafted, the reading has lost nothing: the statements that are
drafted and the expressions that are computed are those of the nodes, in their order.
-/

namespace OnePage

/-! ### Nodes that are evaluated -/

/-- The nodes that are evaluated to test a condition. An equality is tested without having a value
itself. -/
def Tree.tested (t : Tree Resolved) : Forest Resolved :=
  if t.label.isEquality then t.within else t :: t.within

/-- The nodes that are evaluated to print a node. Only an operation has to be. -/
def Tree.printed (t : Tree Resolved) : Forest Resolved :=
  if t.label.isSum || t.label.isComparison then t :: t.within else []

mutual

/-- The nodes that are evaluated in a statement, in the order in which their values are used. -/
def Tree.evaluated : Tree Resolved → Forest Resolved
  | .node r children =>
    match r.node.production? with
    | some .block => Forest.evaluated children
    | some .assignmentStatement =>
      match children with
      | [_, value] => value :: value.within
      | _ => []
    | some .printStatement =>
      match children with
      | [value] => value.printed
      | _ => []
    | some .ifStatement | some .whileStatement =>
      match children with
      | [condition, body] => condition.tested ++ Tree.evaluated body
      | _ => []
    | _ => []

/-- The nodes that are evaluated in some statements. -/
def Forest.evaluated : Forest Resolved → Forest Resolved
  | [] => []
  | t :: ts => Tree.evaluated t ++ Forest.evaluated ts

end

/-! ### Nodes that are statements -/

mutual

/-- The statements in a statement: those of a block, and the body under a condition, each with those
in it. -/
def Tree.nested : Tree Resolved → Forest Resolved
  | .node r children =>
    match r.node.production? with
    | some .block => Forest.statements children
    | some .ifStatement | some .whileStatement =>
      match children with
      | [_, body] => body :: Tree.nested body
      | _ => []
    | _ => []

/-- Some statements, each with those in it. -/
def Forest.statements : Forest Resolved → Forest Resolved
  | [] => []
  | t :: ts => t :: Tree.nested t ++ Forest.statements ts

end

/-- A statement with those in it. -/
def Tree.statements (t : Tree Resolved) : Forest Resolved := t :: t.nested

/-! ### Statements of nodes -/

namespace Stmt

/-- The statement has code: it does not stand for an error. -/
def IsValid : Stmt → Prop
  | .invalid _ => False
  | _ => True

end Stmt

/-- The node has the shape of the statement: a block, a declaration or an assignment of a symbol, a
print statement, or a body under a condition, each with what its children are read as. -/
inductive Tree.Stands : Tree Resolved → Stmt → Prop where
  | block (symbol : Option SymbolId) (children : Forest Resolved) :
      Stands (.node ⟨.branch .block, symbol⟩ children) (.block (Stmt.ofTrees children))
  | declare (symbol : Option SymbolId) (type name : Tree Resolved) {target : SymbolId} :
      name.label.symbol = some target →
      Stands (.node ⟨.branch .varDecl, symbol⟩ [type, name]) (.declare target)
  | assign (symbol : Option SymbolId) (name value : Tree Resolved) {target : SymbolId} :
      name.label.symbol = some target →
      Stands (.node ⟨.branch .assignmentStatement, symbol⟩ [name, value])
        (.assign target (.ofTree value))
  | print (symbol : Option SymbolId) (value : Tree Resolved) :
      Stands (.node ⟨.branch .printStatement, symbol⟩ [value]) (.print (.ofTree value))
  | ifThen (symbol : Option SymbolId) (condition body : Tree Resolved) :
      Stands (.node ⟨.branch .ifStatement, symbol⟩ [condition, body])
        (.ifThen (.ofTree condition) (.ofTree body))
  | whileDo (symbol : Option SymbolId) (condition body : Tree Resolved) :
      Stands (.node ⟨.branch .whileStatement, symbol⟩ [condition, body])
        (.whileDo (.ofTree condition) (.ofTree body))

/-- A node that is read as a statement with code has its shape. -/
theorem Tree.stands_ofTree (t : Tree Resolved) (h : (Stmt.ofTree t).IsValid) :
    t.Stands (Stmt.ofTree t) := by
  obtain ⟨⟨node, symbol⟩, children⟩ := t
  unfold Stmt.ofTree at h ⊢
  split at h
  · next hnode =>
    cases hnode
    exact .block symbol children
  · next hnode =>
    cases hnode
    unfold Stmt.ofDeclaration at h ⊢
    split at h
    · split at h
      · next htarget =>
        exact .declare symbol _ _ htarget
      · exact h.elim
    · exact h.elim
  · next hnode =>
    cases hnode
    unfold Stmt.ofAssignment at h ⊢
    split at h
    · split at h
      · next htarget =>
        exact .assign symbol _ _ htarget
      · exact h.elim
    · exact h.elim
  · next hnode =>
    cases hnode
    unfold Stmt.ofPrint at h ⊢
    split at h
    · exact .print symbol _
    · exact h.elim
  · next hnode =>
    cases hnode
    split at h
    · exact .ifThen symbol _ _
    · exact h.elim
  · next hnode =>
    cases hnode
    split at h
    · exact .whileDo symbol _ _
    · exact h.elim
  · exact h.elim

mutual

/-- The statements in a node are read as those in its own. -/
theorem Tree.map_nested (t : Tree Resolved) (hvalid : (Stmt.ofTree t).IsValid)
    (h : ∀ s ∈ (Stmt.ofTree t).parts, s.IsValid) :
    t.nested.map Stmt.ofTree = (Stmt.ofTree t).parts := by
  have hstands := t.stands_ofTree hvalid
  generalize hs : Stmt.ofTree t = s at h hstands ⊢
  cases hstands with
  | block symbol children => exact Forest.map_statements children h
  | declare | assign | print => rfl
  | ifThen symbol condition body | whileDo symbol condition body =>
    obtain ⟨hbody, hparts⟩ := List.forall_mem_cons.mp h
    exact congrArg (List.cons _) (Tree.map_nested body hbody hparts)

/-- Statements, with those in them, are read as their own. -/
theorem Forest.map_statements (ts : Forest Resolved)
    (h : ∀ s ∈ Stmt.partsAll (Stmt.ofTrees ts), s.IsValid) :
    (Forest.statements ts).map Stmt.ofTree = Stmt.partsAll (Stmt.ofTrees ts) := by
  cases ts with
  | nil => rfl
  | cons t ts =>
    rw [Stmt.ofTrees, Stmt.partsAll] at h ⊢
    obtain ⟨hvalid, hrest⟩ := List.forall_mem_cons.mp h
    obtain ⟨hparts, hrest⟩ := List.forall_mem_append.mp hrest
    rw [Forest.statements, List.map_append, List.map_cons, Tree.map_nested t hvalid hparts,
      Forest.map_statements ts hrest, List.cons_append]

end

/-- The nodes that are statements are read as the statements of the program. -/
theorem Tree.map_statements (t : Tree Resolved)
    (h : ∀ s ∈ Stmt.ofTree t :: (Stmt.ofTree t).parts, s.IsValid) :
    t.statements.map Stmt.ofTree = Stmt.ofTree t :: (Stmt.ofTree t).parts := by
  obtain ⟨hvalid, hparts⟩ := List.forall_mem_cons.mp h
  rw [Tree.statements, List.map_cons, Tree.map_nested t hvalid hparts]

/-! ### Expressions in statements -/

namespace Expr

private theorem sound_of_testParts {e : Expr} (h : ∀ part ∈ e.testParts, part.IsValue) :
    e.Sound := by
  unfold testParts at h
  split at h
  · next hequality =>
    unfold isEquality at hequality
    split at hequality
    · exact ⟨trivial, h⟩
    · cases hequality
  · exact List.forall_mem_cons.mp h

/-- Operations have to be evaluated before they are printed. -/
theorem isPrintable_ofTree {r : Resolved} (h : r.isSum = true ∨ r.isComparison = true)
    (children : Forest Resolved) : (ofTree (.node r children)).isPrintable = false := by
  rcases h with hsum | hcompare
  · rw [ofTree_of_isSum hsum]
    cases (ofTrees children).flatMap terms <;> rfl
  · rw [ofTree_of_isComparison hcompare]
    unfold compareAll
    split <;> rfl

/-- A node that has code is an equality if its expression is. -/
theorem isEquality_ofTree {t : Tree Resolved} (h : (ofTree t).Sound) :
    (ofTree t).isEquality = t.label.isEquality := by
  obtain ⟨r, children⟩ := t
  change _ = (r.isComparison && r.node.text == "==")
  by_cases hcompare : r.isComparison
  · rw [ofTree_of_isComparison hcompare] at h ⊢
    obtain ⟨left, right, _, heq⟩ := compareAll_of_isValue h.1
    rw [heq, hcompare, Bool.true_and]
    cases r.node.text == "==" <;> rfl
  · rw [Bool.eq_false_iff.mpr hcompare, Bool.false_and]
    by_cases hsum : r.isSum
    · rw [ofTree_of_isSum hsum]
      cases (ofTrees children).flatMap terms <;> rfl
    · exact (plain_of_isPrintable (ofTree_plain (Bool.eq_false_iff.mpr hsum)
        (Bool.eq_false_iff.mpr hcompare) children)).2.2

end Expr

/-- What is evaluated to test a node is what its expression asks for. -/
theorem Tree.map_tested (t : Tree Resolved) (h : ∀ e ∈ (Expr.ofTree t).testParts, e.IsValue) :
    t.tested.map Expr.ofTree = (Expr.ofTree t).testParts := by
  have hsound := Expr.sound_of_testParts h
  rw [Tree.tested, Expr.testParts, Expr.isEquality_ofTree hsound, apply_ite (List.map Expr.ofTree),
    List.map_cons, t.map_within hsound]

/-- What is evaluated to print a node is what its expression asks for. -/
theorem Tree.map_printed (t : Tree Resolved)
    (h : ∀ e ∈ (Stmt.print (.ofTree t)).evaluated, e.IsValue) :
    t.printed.map Expr.ofTree = (Stmt.print (.ofTree t)).evaluated := by
  obtain ⟨r, children⟩ := t
  rw [Stmt.evaluated] at h ⊢
  change List.map _ (if r.isSum || r.isComparison then _ else _) = _
  by_cases hoperation : r.isSum || r.isComparison
  · have hprintable := Expr.isPrintable_ofTree (by simpa using hoperation) children
    rw [hprintable] at h ⊢
    rw [if_pos hoperation]
    exact congrArg (List.cons _) (Tree.map_within _ (List.forall_mem_cons.mp h))
  · have hplain := Bool.eq_false_iff.mpr hoperation
    rw [if_neg hoperation]
    rcases Expr.ofTree_plain (Bool.or_eq_false_iff.mp hplain).1 (Bool.or_eq_false_iff.mp hplain).2
      children with hprintable | ⟨err, herr⟩
    · rw [if_pos hprintable]
      rfl
    · rw [herr] at h
      exact (h _ (List.mem_cons_self ..)).elim

mutual

/-- The nodes that are evaluated are read as the expressions that are. -/
theorem Tree.map_evaluated (t : Tree Resolved)
    (hs : ∀ s ∈ Stmt.ofTree t :: (Stmt.ofTree t).parts, s.IsValid)
    (he : ∀ e ∈ (Stmt.ofTree t).evaluated, e.IsValue) :
    t.evaluated.map Expr.ofTree = (Stmt.ofTree t).evaluated := by
  obtain ⟨hvalid, hparts⟩ := List.forall_mem_cons.mp hs
  have hstands := t.stands_ofTree hvalid
  generalize hs : Stmt.ofTree t = s at hparts he hstands ⊢
  cases hstands with
  | block symbol children => exact Forest.map_evaluated children hparts he
  | declare => rfl
  | assign symbol name value =>
    exact congrArg (List.cons _) (value.map_within (List.forall_mem_cons.mp he))
  | print symbol value => exact value.map_printed he
  | ifThen symbol condition body | whileDo symbol condition body =>
    rw [Stmt.evaluated] at he ⊢
    obtain ⟨htested, hbody⟩ := List.forall_mem_append.mp he
    change (condition.tested ++ body.evaluated).map Expr.ofTree = _
    rw [List.map_append, condition.map_tested htested, Tree.map_evaluated body hparts hbody]

private theorem Forest.map_evaluated (ts : Forest Resolved)
    (hs : ∀ s ∈ Stmt.partsAll (Stmt.ofTrees ts), s.IsValid)
    (he : ∀ e ∈ Stmt.evaluatedAll (Stmt.ofTrees ts), e.IsValue) :
    (Forest.evaluated ts).map Expr.ofTree = Stmt.evaluatedAll (Stmt.ofTrees ts) := by
  cases ts with
  | nil => rfl
  | cons t ts =>
    rw [Stmt.ofTrees] at hs he ⊢
    rw [Stmt.partsAll] at hs
    rw [Stmt.evaluatedAll] at he ⊢
    obtain ⟨hfirst, hrest⟩ := List.forall_mem_append.mp he
    obtain ⟨hvalid, hs⟩ := List.forall_mem_cons.mp hs
    obtain ⟨hparts, hs⟩ := List.forall_mem_append.mp hs
    rw [Forest.evaluated, List.map_append, Forest.map_evaluated ts hs hrest,
      Tree.map_evaluated t (List.forall_mem_cons.mpr ⟨hvalid, hparts⟩) hfirst]

end

/-! ### What drafting asks for -/

namespace Call

variable {table : ScopeTable} {whole d : Draft}

/-- A call that returns is on an expression that has code. -/
theorem isValue_of_returned {call : Call} {e : Expr} (h : Returned table whole (call, d))
    (he : call.value? = some e) : e.IsValue := by
  obtain ⟨_, last, hreturns, _⟩ := h
  cases call with
  | draft s => cases he
  | load value =>
    cases he
    cases e with
    | oddCompare _ | invalid _ => cases hreturns
    | _ => trivial
  | toSlot value =>
    cases he
    obtain ⟨slot, hslot⟩ := hreturns
    cases e with
    | oddCompare _ | invalid _ => cases hslot
    | _ => trivial

/-- A call that returns is on a statement that has code. -/
theorem isValid_of_returned {s : Stmt} (h : Returned table whole (.draft s, d)) : s.IsValid := by
  obtain ⟨_, last, hreturns, _⟩ := h
  cases s with
  | invalid _ => cases hreturns
  | _ => trivial

private theorem isValue_of_mem_values {calls : List (Call × Draft)}
    (h : ∀ call ∈ calls, Returned table whole call) {e : Expr} (he : e ∈ Call.values calls) :
    e.IsValue := by
  obtain ⟨⟨call, first⟩, hmem, hcomputed⟩ := List.mem_filterMap.mp he
  exact isValue_of_returned (h _ hmem) (value?_of_computed? hcomputed)

/-- So is everything inside the expression, as it is computed by calls that return too. -/
theorem sound_of_returned {call : Call} {e : Expr} (h : Returned table whole (call, d))
    (he : call.value? = some e) : e.Sound := by
  refine ⟨isValue_of_returned h he, fun part hpart ↦ ?_⟩
  obtain ⟨hd, last, hreturns, hl⟩ := h
  cases call with
  | draft s => cases he
  | load value =>
    cases he
    rw [← Expr.values_calls table e d] at hpart
    exact isValue_of_mem_values (Expr.returned_calls table whole e d last hd hreturns hl) hpart
  | toSlot value =>
    cases he
    obtain ⟨slot, hslot⟩ := hreturns
    have hparts := List.mem_cons_of_mem e hpart
    rw [← Expr.values_slotCalls (Expr.values_calls table e) d] at hparts
    exact isValue_of_mem_values
      (Expr.returned_slotCalls (Expr.returned_calls table whole e) hd hslot hl) hparts

end Call

namespace Tree

variable {table : ScopeTable} {root : Tree Resolved} {d : Draft}

/-- All statements of a program that is drafted have code. -/
theorem isValid_of_drafted (h : (Stmt.draft table (Stmt.ofTree root)).run Draft.opened = .ok () d) :
    ∀ s ∈ Stmt.ofTree root :: (Stmt.ofTree root).parts, s.IsValid := by
  intro s hs
  rw [← Stmt.statements_trace table] at hs
  obtain ⟨first, hmem⟩ := Call.mem_statements.mp hs
  exact Call.isValid_of_returned (Stmt.returned_trace h _ hmem)

/-- Each node that is a statement has its shape. -/
theorem stands_of_drafted
    (h : (Stmt.draft table (Stmt.ofTree root)).run Draft.opened = .ok () d) :
    ∀ t ∈ root.statements, t.Stands (Stmt.ofTree t) := by
  intro t ht
  refine t.stands_ofTree (isValid_of_drafted h _ ?_)
  rw [← root.map_statements (isValid_of_drafted h)]
  exact List.mem_map_of_mem ht

/-- The expressions that are computed are those of the nodes that are evaluated, in their order. -/
theorem values_of_drafted
    (h : (Stmt.draft table (Stmt.ofTree root)).run Draft.opened = .ok () d) :
    Call.values ((Stmt.ofTree root).trace table) = root.evaluated.map Expr.ofTree := by
  rw [Stmt.values_trace, root.map_evaluated (isValid_of_drafted h)]
  intro e he
  rw [← Stmt.values_trace table] at he
  exact Call.isValue_of_mem_values (Stmt.returned_trace h) he

/-- A call on an expression is on that of a node that is evaluated. -/
theorem exists_evaluated (h : (Stmt.draft table (Stmt.ofTree root)).run Draft.opened = .ok () d)
    {call : Call} {first : Draft} (hcall : (call, first) ∈ (Stmt.ofTree root).trace table)
    {e : Expr} (he : call.value? = some e) : ∃ t ∈ root.evaluated, Expr.ofTree t = e := by
  have hasked : e ∈ (Stmt.ofTree root).evaluated :=
    Stmt.asked_trace table _ (List.mem_filterMap.mpr ⟨_, hcall, he⟩)
  rw [← Stmt.values_trace table, values_of_drafted h] at hasked
  exact List.mem_map.mp hasked

/-- A node that is evaluated has a call that computes it. -/
theorem exists_call (h : (Stmt.draft table (Stmt.ofTree root)).run Draft.opened = .ok () d)
    {t : Tree Resolved} (ht : t ∈ root.evaluated) : ∃ call first,
      (call, first) ∈ (Stmt.ofTree root).trace table ∧ call.computed? = some (Expr.ofTree t) := by
  have hmem := List.mem_map_of_mem (f := Expr.ofTree) ht
  rw [← values_of_drafted h] at hmem
  obtain ⟨⟨call, first⟩, hcall, hcomputed⟩ := List.mem_filterMap.mp hmem
  exact ⟨call, first, hcall, hcomputed⟩

end Tree

end OnePage